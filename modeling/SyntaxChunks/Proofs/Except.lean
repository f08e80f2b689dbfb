/-
# `Proofs.Except` — computations that may fail, taken apart

A computation in steps succeeds exactly if every step does.  So it is of results
that may be missing, and one is missing exactly if that of a step is.
-/
import Mathlib.Data.List.Forall2

namespace SyntaxChunks

variable {ε α β : Type}

theorem bind_eq_ok {x : Except ε α} {f : α → Except ε β} {b : β} :
    (x >>= f) = .ok b ↔ ∃ a, x = .ok a ∧ f a = .ok b := by
  cases x with
  | error e => simp [bind, Except.bind]
  | ok a => simp [bind, Except.bind]

theorem mapError_eq_ok {ε' : Type} {f : ε → ε'} {x : Except ε α} {a : α} :
    x.mapError f = .ok a ↔ x = .ok a := by
  cases x with
  | error e => simp [Except.mapError]
  | ok b => simp [Except.mapError]

theorem mapM_eq_ok {f : α → Except ε β} :
    ∀ {l : List α} {r : List β}, l.mapM f = .ok r ↔ List.Forall₂ (fun a b => f a = .ok b) l r
  | [], r => by
      rw [List.mapM_nil, List.forall₂_nil_left_iff]
      exact ⟨fun h => (Except.ok.inj h).symm, fun h => h ▸ rfl⟩
  | a :: l, r => by
      rw [List.mapM_cons, bind_eq_ok, List.forall₂_cons_left_iff]
      constructor
      · rintro ⟨b, hb, hrest⟩
        obtain ⟨bs, hbs, heq⟩ := bind_eq_ok.mp hrest
        exact ⟨b, bs, hb, mapM_eq_ok.mp hbs, (Except.ok.inj heq).symm⟩
      · rintro ⟨b, bs, hb, hrest, rfl⟩
        exact ⟨b, hb, bind_eq_ok.mpr ⟨bs, mapM_eq_ok.mpr hrest, rfl⟩⟩

/-- If every element has a result, so has the list. -/
theorem exists_mapM_eq_ok {f : α → Except ε β} :
    ∀ {l : List α}, (∀ a ∈ l, ∃ b, f a = .ok b) → ∃ r, l.mapM f = .ok r
  | [], _ => ⟨[], rfl⟩
  | a :: l, h => by
      obtain ⟨b, hb⟩ := h a List.mem_cons_self
      obtain ⟨bs, hbs⟩ := exists_mapM_eq_ok fun x hx => h x (List.mem_cons_of_mem _ hx)
      exact ⟨b :: bs, mapM_eq_ok.mpr (.cons hb (mapM_eq_ok.mp hbs))⟩

/-! ## Results that may be missing -/

theorem mapM_eq_some {f : α → Option β} :
    ∀ {l : List α} {r : List β},
      l.mapM f = some r ↔ List.Forall₂ (fun a b => f a = some b) l r
  | [], r => by
      rw [List.mapM_nil, List.forall₂_nil_left_iff]
      exact ⟨fun h => (Option.some.inj h).symm, fun h => h ▸ rfl⟩
  | a :: l, r => by
      rw [List.mapM_cons, List.forall₂_cons_left_iff]
      constructor
      · intro h
        obtain ⟨b, hb, h⟩ := Option.bind_eq_some_iff.mp h
        obtain ⟨bs, hbs, heq⟩ := Option.bind_eq_some_iff.mp h
        exact ⟨b, bs, hb, mapM_eq_some.mp hbs, (Option.some.inj heq).symm⟩
      · rintro ⟨b, bs, hb, hrest, rfl⟩
        rw [hb, mapM_eq_some.mpr hrest]
        rfl

/-- A result is missing exactly if that of an element is. -/
theorem mapM_eq_none {f : α → Option β} :
    ∀ {l : List α}, l.mapM f = none ↔ ∃ a ∈ l, f a = none
  | [] => by simp
  | a :: l => by
      rw [List.mapM_cons, List.exists_mem_cons_iff, ← mapM_eq_none (l := l)]
      cases f a with
      | none => simp
      | some b => cases l.mapM f <;> simp

section

variable {R : α → β → Prop} {l : List α} {r : List β}

theorem exists_of_mem_left (h : List.Forall₂ R l r) {a : α} (ha : a ∈ l) : ∃ b ∈ r, R a b := by
  induction h with
  | nil => exact absurd ha List.not_mem_nil
  | @cons x y _ _ hhead _ ih =>
      rcases List.mem_cons.mp ha with rfl | ha
      · exact ⟨y, List.mem_cons_self, hhead⟩
      · obtain ⟨b, hb, hrel⟩ := ih ha
        exact ⟨b, List.mem_cons_of_mem y hb, hrel⟩

/-- Two relations between members, one after the other. -/
theorem forall₂_comp {γ : Type} {S : β → γ → Prop} {T : α → γ → Prop}
    (hT : ∀ a b c, R a b → S b c → T a c) : ∀ {l : List α} {m : List β} {n : List γ},
      List.Forall₂ R l m → List.Forall₂ S m n → List.Forall₂ T l n
  | _, _, _, .nil, .nil => .nil
  | _, _, _, .cons hR hRs, .cons hS hSs => .cons (hT _ _ _ hR hS) (forall₂_comp hT hRs hSs)

theorem exists_of_mem_right (h : List.Forall₂ R l r) {b : β} (hb : b ∈ r) : ∃ a ∈ l, R a b := by
  have hflip : List.Forall₂ (flip R) r l := List.Forall₂.flip h
  exact exists_of_mem_left hflip hb

end

end SyntaxChunks
