import Revng.Lib.SeparatedText

/-!
# Codecs

A codec writes values down and reads them back.  It keeps a value when the value comes back and
no other value is written the same.  A codec that gives all its values back keeps all of them
(`keeps_of_forall`), but one that loses a value may also lose another one with it: the value it
takes the first for comes back, and is not the only one with its code.

The values of a codec may be some of the values of another one (`Embeds.keeps_iff`), and a codec
of sequences may join the texts of the values (`Joins.keeps_iff`).
-/

universe u v w

/-- `Mem` says which values there are. -/
structure Codec (α : Type u) (β : Type v) where
  Mem : α → Prop
  encode : α → β
  decode : β → Option α

namespace Codec

variable {α : Type u} {β : Type v} {γ : Type w} {c : Codec α β} {x : α}

/-- The value comes back, and no other value has its code. -/
def Keeps (c : Codec α β) (x : α) : Prop :=
  c.decode (c.encode x) = some x ∧ ∀ y, c.Mem y → c.encode y = c.encode x → y = x

theorem eq_of_decode {y : α} (hx : c.decode (c.encode x) = some x)
    (hy : c.decode (c.encode y) = some y) (h : c.encode y = c.encode x) : y = x := by
  rw [h, hx] at hy
  exact (Option.some.inj hy).symm

theorem keeps_of_forall (h : ∀ y, c.Mem y → c.decode (c.encode y) = some y) (hx : c.Mem x) :
    c.Keeps x :=
  ⟨h x hx, fun y hy => eq_of_decode (h x hx) (h y hy)⟩

/-- A value is kept when the ones that do not come back are written in another way. -/
theorem keeps_iff_of_decode (hx : c.decode (c.encode x) = some x) :
    c.Keeps x ↔ ∀ y, c.Mem y → c.decode (c.encode y) ≠ some y → c.encode y ≠ c.encode x := by
  constructor
  · intro h y hy hlost heq
    obtain rfl := h.2 y hy heq
    exact hlost hx
  · refine fun h => ⟨hx, fun y hy heq => ?_⟩
    by_contra hne
    exact h y hy (fun hback => hne (eq_of_decode hx hback heq)) heq

/-- The values of `c` are some of those of `d`, with the same codes, and `d` reads these codes as
`c` does.  Other values of `d` have other codes. -/
structure Embeds (c : Codec α β) (d : Codec γ β) (f : α → γ) : Prop where
  injective : Function.Injective f
  mem_iff : ∀ x, d.Mem (f x) ↔ c.Mem x
  encode_eq : ∀ x, d.encode (f x) = c.encode x
  decode_eq : ∀ x, d.decode (c.encode x) = (c.decode (c.encode x)).map f
  exists_eq : ∀ x y, d.Mem y → d.encode y = c.encode x → ∃ z, f z = y

theorem Embeds.keeps_iff {d : Codec γ β} {f : α → γ} (h : Embeds c d f) :
    d.Keeps (f x) ↔ c.Keeps x := by
  have hback : d.decode (d.encode (f x)) = some (f x) ↔ c.decode (c.encode x) = some x := by
    rw [h.encode_eq, h.decode_eq, Option.map_eq_some_iff]
    constructor
    · rintro ⟨z, hz, hzx⟩
      rwa [h.injective hzx] at hz
    · exact fun hx => ⟨x, hx, rfl⟩
  refine and_congr hback ⟨fun hd y hy heq => ?_, fun hc y hy heq => ?_⟩
  · refine h.injective (hd (f y) ((h.mem_iff y).mpr hy) ?_)
    rw [h.encode_eq, h.encode_eq, heq]
  · rw [h.encode_eq] at heq
    obtain ⟨z, rfl⟩ := h.exists_eq x y hy heq
    rw [h.encode_eq] at heq
    rw [hc z ((h.mem_iff z).mp hy) heq]

/-! ## Sequences -/

section Sequences

open SeparatedText (join eq_of_join_eq)

variable {τ : Type*} {χ : Type*} {sep : χ} {front : List (List χ)} {ts : List τ}
  {vs : List α} {output : α → List χ} {component : τ → Codec α (List χ)}
  {d : Codec (List α) (List χ)}

theorem forall₂_and_right {R : τ → α → Prop} {p : α → Prop} :
    List.Forall₂ (fun t v => R t v ∧ p v) ts vs ↔ List.Forall₂ R ts vs ∧ ∀ v ∈ vs, p v := by
  induction vs generalizing ts with
  | nil => simp
  | cons v vs ih =>
    cases ts with
    | nil => simp
    | cons t ts => simp [ih, and_and_and_comm]

/-- Every value has its type and is one of the values there are. -/
theorem forall₂_type_iff {type : α → τ} {p : α → Prop} :
    List.Forall₂ (fun t v => type v = t ∧ p v) ts vs ↔ vs.map type = ts ∧ ∀ v ∈ vs, p v := by
  induction vs generalizing ts with
  | nil => simp [eq_comm]
  | cons v vs ih =>
    cases ts with
    | nil => simp
    | cons t ts => simp [ih, and_and_and_comm]

/-- Values of given types are written one after the other, after some fixed texts.  A sequence
comes back when every value comes back and has no separator in its text. -/
structure Joins (sep : χ) (front : List (List χ)) (ts : List τ) (output : α → List χ)
    (component : τ → Codec α (List χ)) (d : Codec (List α) (List χ)) : Prop where
  component_encode : ∀ t v, (component t).encode v = output v
  mem_iff : ∀ vs, d.Mem vs ↔ List.Forall₂ (fun t v => (component t).Mem v) ts vs
  encode_eq : ∀ vs, d.encode vs = join sep (front ++ vs.map output)
  decode_iff : ∀ vs, d.Mem vs → (d.decode (d.encode vs) = some vs ↔
    List.Forall₂ (fun t v => (component t).decode (output v) = some v ∧ sep ∉ output v) ts vs)

/-- Values that are kept are told apart by their texts. -/
theorem eq_of_map_eq (hencode : ∀ t v, (component t).encode v = output v)
    (hvs : List.Forall₂ (fun t v => (component t).Keeps v) ts vs) {us : List α}
    (hus : List.Forall₂ (fun t v => (component t).Mem v) ts us)
    (heq : us.map output = vs.map output) : us = vs := by
  induction hvs generalizing us with
  | nil =>
    cases hus
    rfl
  | @cons t v ts vs hv _ ih =>
    cases hus with
    | @cons _ u _ us hu hus =>
      obtain ⟨hhead, htail⟩ := List.cons.inj heq
      rw [← hencode t u, ← hencode t v] at hhead
      rw [hv.2 u hu hhead, ih hus htail]

namespace Joins

variable (h : Joins sep front ts output component d)
include h

/-- One value is replaced by another one of its type. -/
theorem mem_set {i : Nat} (hi : i < ts.length) {w : α} (hvs : d.Mem vs)
    (hw : (component ts[i]).Mem w) : d.Mem (vs.set i w) := by
  rw [h.mem_iff, List.forall₂_iff_get] at hvs ⊢
  obtain ⟨hlength, hget⟩ := hvs
  refine ⟨by rw [hlength, List.length_set], fun j hj hjset => ?_⟩
  rcases eq_or_ne i j with rfl | hne
  · simpa using hw
  · have hj' : j < vs.length := hlength ▸ hj
    simpa [List.getElem_set_ne hne] using hget j hj hj'

theorem eq_getElem (hkeeps : d.Keeps vs) (hvs : d.Mem vs) {i : Nat} (hi : i < ts.length)
    (hi' : i < vs.length) {w : α} (hw : (component ts[i]).Mem w)
    (heq : output w = output vs[i]) : w = vs[i] := by
  have houtput : (vs.set i w).map output = vs.map output := by
    rw [List.map_set, heq, ← List.map_set, List.set_getElem_self]
  have hset : vs.set i w = vs := by
    refine hkeeps.2 _ (h.mem_set hi hvs hw) ?_
    rw [h.encode_eq, h.encode_eq, houtput]
  have hget := congrArg (fun us => us[i]?) hset
  simpa [hi'] using hget

theorem keeps_iff [DecidableEq χ] (hfront : ∀ x ∈ front, sep ∉ x) (hvs : d.Mem vs) :
    d.Keeps vs ↔
      List.Forall₂ (fun t v => (component t).Keeps v ∧ sep ∉ output v) ts vs := by
  constructor
  · intro hkeeps
    have hback := (h.decode_iff vs hvs).mp hkeeps.1
    rw [List.forall₂_iff_get] at hback ⊢
    refine ⟨hback.1, fun i hi hi' => ⟨⟨?_, fun w hw heq => ?_⟩, (hback.2 i hi hi').2⟩⟩
    · rw [h.component_encode]
      exact (hback.2 i hi hi').1
    · rw [h.component_encode, h.component_encode] at heq
      exact h.eq_getElem hkeeps hvs hi hi' hw heq
  · intro hkeeps
    refine ⟨(h.decode_iff vs hvs).mpr (hkeeps.imp fun t v hv => ?_), fun us hus heq => ?_⟩
    · rw [← h.component_encode t v]
      exact ⟨hv.1.1, h.component_encode t v ▸ hv.2⟩
    · have hmem := (h.mem_iff us).mp hus
      have houtputs : ∀ x ∈ front ++ vs.map output, sep ∉ x := by
        rw [List.forall_mem_append, List.forall_mem_map]
        exact ⟨hfront, (forall₂_and_right.mp hkeeps).2⟩
      have hlength : (front ++ us.map output).length = (front ++ vs.map output).length := by
        simp [← hmem.length_eq, hkeeps.length_eq]
      rw [h.encode_eq, h.encode_eq] at heq
      have houtput := List.append_cancel_left (eq_of_join_eq hlength houtputs heq)
      exact eq_of_map_eq h.component_encode (hkeeps.imp fun _ _ hv => hv.1) hmem houtput

end Joins

end Sequences

end Codec
