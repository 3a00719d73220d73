import Mathlib.Data.List.Forall2
import SlotScript.Proofs.Store.Lasting
import SlotScript.Proofs.Store.Reachability

/-!
# Stores that mirror each other

Two stores mirror each other along a relation of their slots when related slots hold the same value,
up to the relation between the items of lists, or are both stale, and when no live slot is related
to two slots. Where the slots lie, how often places have been used and which other slots there are
does not matter.

What roots reach in one store, related roots reach in the other (`Mirrors.reaches`). Storing alike
values on both sides relates the two new slots (`Mirrors.allocate`).
-/

namespace SlotScript

/-! ## Alike values -/

variable {β : Type} {R S : Slot → Slot → Prop}

/-- The same values up to a relation between items. -/
inductive Value.Alike (R : Slot → Slot → Prop) : Value β → Value β → Prop
  | leaf {v : Value β} (h : v.kind ≠ .list) : Alike R v v
  | list {items items' : List Slot} (h : List.Forall₂ R items items') :
      Alike R (.list items) (.list items')

namespace Value.Alike

variable {v w : Value β}

theorem items (h : Alike R v w) : List.Forall₂ R v.items w.items := by
  cases h with
  | leaf h =>
    cases v with
    | list items => exact absurd rfl h
    | _ => exact .nil
  | list h => exact h

/-- Related items may be related otherwise. -/
theorem imp (h : Alike R v w) (hi : ∀ s ∈ v.items, ∀ t ∈ w.items, R s t → S s t) : Alike S v w := by
  cases h with
  | leaf h => exact .leaf h
  | list h =>
    refine .list ?_
    change ∀ s ∈ _, ∀ t ∈ _, R s t → S s t at hi
    induction h with
    | nil => exact .nil
    | cons hab _ ih =>
      refine .cons (hi _ List.mem_cons_self _ List.mem_cons_self hab) (ih fun s hs t ht => ?_)
      exact hi s (List.mem_cons_of_mem _ hs) t (List.mem_cons_of_mem _ ht)

theorem flip (h : Alike R v w) : Alike (flip R) w v := by
  cases h with
  | leaf h => exact .leaf h
  | list h => exact .list h.flip

end Value.Alike

theorem optionRel_imp {α γ : Type} {P Q : α → γ → Prop} {x : Option α} {y : Option γ}
    (h : Option.Rel P x y) (hpq : ∀ a b, x = some a → y = some b → P a b → Q a b) :
    Option.Rel Q x y := by
  cases h with
  | some h => exact .some (hpq _ _ rfl rfl h)
  | none => exact .none

theorem optionRel_flip {α γ : Type} {P : α → γ → Prop} {x : Option α} {y : Option γ}
    (h : Option.Rel P x y) : Option.Rel (flip P) y x := by
  cases h with
  | some h => exact .some h
  | none => exact .none

theorem exists_of_mem_forall₂ {s : Slot} {items items' : List Slot}
    (h : List.Forall₂ R items items') (hs : s ∈ items) : ∃ t ∈ items', R s t := by
  induction h with
  | nil => cases hs
  | cons hab _ ih =>
    rcases List.mem_cons.1 hs with rfl | hs
    · exact ⟨_, List.mem_cons_self, hab⟩
    · obtain ⟨t, ht, hst⟩ := ih hs
      exact ⟨t, List.mem_cons_of_mem _ ht, hst⟩

/-! ## Mirrors -/

namespace Store

/-- Related slots were handed out in both stores and hold alike values or none, and a live slot is
related to one slot only. -/
structure Mirrors (R : Slot → Slot → Prop) (st st' : Store β) : Prop where
  wf : st.WF ∧ st'.WF
  issued : ∀ {s t}, R s t → st.Issued s ∧ st'.Issued t
  value : ∀ {s t}, R s t → Option.Rel (Value.Alike R) (st.get? s) (st'.get? t)
  right_unique : ∀ {s t t'}, R s t → R s t' → st.isLive s = true → t = t'
  left_unique : ∀ {s s' t}, R s t → R s' t → st'.isLive t = true → s = s'

namespace Mirrors

variable {st st' : Store β} {roots roots' : List Slot} {s t : Slot} {v w : Value β}

theorem symm (h : Mirrors R st st') : Mirrors (flip R) st' st := by
  refine ⟨h.wf.symm, fun hst => (h.issued hst).symm, fun hst => ?_,
    fun h₁ h₂ hl => h.left_unique h₁ h₂ hl, fun h₁ h₂ hl => h.right_unique h₁ h₂ hl⟩
  exact optionRel_imp (optionRel_flip (h.value hst)) fun _ _ _ _ hvw => hvw.flip

theorem isLive (h : Mirrors R st st') (hst : R s t) : st.isLive s = st'.isLive t := by
  have hvalue := h.value hst
  unfold Store.isLive
  revert hvalue
  generalize st.get? s = x
  generalize st'.get? t = y
  rintro (_ | _) <;> rfl

/-- A live slot that roots reach is related to a slot that related roots reach. -/
theorem reaches (h : Mirrors R st st')
    (hroots : ∀ s ∈ roots, st.isLive s = true → ∃ t ∈ roots', R s t)
    (hs : st.Reaches roots s) (hl : st.isLive s = true) : ∃ t, R s t ∧ st'.Reaches roots' t := by
  induction hs with
  | @root s hs =>
    obtain ⟨t, ht, hst⟩ := hroots s hs hl
    exact ⟨t, hst, .root ht⟩
  | @item a s _ hs ih =>
    obtain ⟨b, hab, hb⟩ := ih (isLive_of_mem_items hs)
    obtain ⟨v, hv⟩ := isLive_iff.1 (isLive_of_mem_items hs)
    obtain ⟨w, hw⟩ := isLive_iff.1 (h.isLive hab ▸ isLive_of_mem_items hs)
    have hvw := h.value hab
    rw [hv, hw] at hvw
    cases hvw with
    | some hvw =>
      rw [items_of_get? hv] at hs
      obtain ⟨t, ht, hst⟩ := exists_of_mem_forall₂ hvw.items hs
      exact ⟨t, hst, hb.item (items_of_get? hw ▸ ht)⟩

/-- Of two related slots that are live, roots reach the one just when related roots reach the
other. -/
theorem reaches_iff (h : Mirrors R st st')
    (hroots : ∀ s ∈ roots, st.isLive s = true → ∃ t ∈ roots', R s t)
    (hroots' : ∀ t ∈ roots', st'.isLive t = true → ∃ s ∈ roots, R s t) (hst : R s t)
    (hl : st.isLive s = true) : st.Reaches roots s ↔ st'.Reaches roots' t := by
  have hl' : st'.isLive t = true := h.isLive hst ▸ hl
  constructor
  · intro hs
    obtain ⟨t', hst', ht'⟩ := h.reaches hroots hs hl
    rwa [h.right_unique hst hst' hl]
  · intro ht
    obtain ⟨s', hst', hs'⟩ := h.symm.reaches hroots' ht hl'
    rwa [h.left_unique hst hst' hl']

/-- Two stores still mirror each other after slots have lost their values on both sides. -/
theorem restrict {st₁ st₁' : Store β} (h : Mirrors R st st') (hsub : ∀ {s t}, S s t → R s t)
    (hlast : st.Lasts st₁) (hlast' : st'.Lasts st₁')
    (hvalue : ∀ {s t}, S s t → Option.Rel (Value.Alike S) (st₁.get? s) (st₁'.get? t)) :
    Mirrors S st₁ st₁' := by
  refine ⟨⟨hlast.wf, hlast'.wf⟩, fun hst => ?_, hvalue, fun h₁ h₂ hl => ?_, fun h₁ h₂ hl => ?_⟩
  · obtain ⟨hs, ht⟩ := h.issued (hsub hst)
    exact ⟨hlast.issued hs, hlast'.issued ht⟩
  · exact h.right_unique (hsub h₁) (hsub h₂) (hlast.isLive (h.issued (hsub h₁)).1 hl)
  · exact h.left_unique (hsub h₁) (hsub h₂) (hlast'.isLive (h.issued (hsub h₁)).2 hl)

/-- Storing alike values relates the new slots. -/
theorem allocate (h : Mirrors R st st') (hvw : Value.Alike R v w) :
    Mirrors (fun s t => R s t ∨ s = st.nextSlot ∧ t = st'.nextSlot) (st.allocate v).2
      (st'.allocate w).2 := by
  obtain ⟨hwf, hwf'⟩ := h.wf
  have hold : ∀ {s t}, R s t → s ≠ st.nextSlot ∧ t ≠ st'.nextSlot := by
    intro s t hst
    obtain ⟨hs, ht⟩ := h.issued hst
    exact ⟨fun heq => not_issued_nextSlot hwf (heq ▸ hs),
      fun heq => not_issued_nextSlot hwf' (heq ▸ ht)⟩
  have hget : ∀ {s t}, R s t → (st.allocate v).2.get? s = st.get? s ∧
      (st'.allocate w).2.get? t = st'.get? t := fun hst => by
    rw [hwf.get?_allocate, hwf'.get?_allocate, if_neg (hold hst).1, if_neg (hold hst).2]
    exact ⟨rfl, rfl⟩
  refine ⟨⟨hwf.allocate, hwf'.allocate⟩, ?_, ?_, ?_, ?_⟩
  · rintro s t (hst | ⟨rfl, rfl⟩)
    · obtain ⟨hs, ht⟩ := h.issued hst
      exact ⟨issued_allocate hwf hs, issued_allocate hwf' ht⟩
    · refine ⟨issued_of_get? (v := v) ?_, issued_of_get? (v := w) ?_⟩
      · rw [hwf.get?_allocate, if_pos rfl]
      · rw [hwf'.get?_allocate, if_pos rfl]
  · rintro s t (hst | ⟨rfl, rfl⟩)
    · rw [(hget hst).1, (hget hst).2]
      exact optionRel_imp (h.value hst) fun _ _ _ _ hxy => hxy.imp fun _ _ _ _ => .inl
    · rw [hwf.get?_allocate, hwf'.get?_allocate, if_pos rfl, if_pos rfl]
      exact .some (hvw.imp fun _ _ _ _ => .inl)
  · rintro s t t' (h₁ | ⟨rfl, rfl⟩) (h₂ | ⟨heq, rfl⟩) hl
    · rw [Store.isLive, (hget h₁).1] at hl
      exact h.right_unique h₁ h₂ hl
    · exact absurd heq (hold h₁).1
    · exact absurd rfl (hold h₂).1
    · rfl
  · rintro s s' t (h₁ | ⟨rfl, rfl⟩) (h₂ | ⟨rfl, heq⟩) hl
    · rw [Store.isLive, (hget h₁).2] at hl
      exact h.left_unique h₁ h₂ hl
    · exact absurd heq (hold h₁).2
    · exact absurd rfl (hold h₂).2
    · rfl

end Mirrors

end Store

end SlotScript
