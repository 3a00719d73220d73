import SlotScript.Proofs.Machine.Acceptance
import SlotScript.Proofs.Machine.Lasting
import SlotScript.Proofs.Store.Mirror

/-!
# Machines that mirror each other

Two machines mirror each other along a relation of their slots when their stores do, when their
tables bind the same names in the same order to related slots, and when they have printed the same
lines. They may differ in everything that a script cannot see: where slots lie, what else is stored,
and whether the ends of statements release anything.

The operations that evaluation is made of keep this: releasing what only an old binding reached
(`Mirrors.release`), reading a text (`Mirrors.parse`), and on one side alone the end of a statement
(`Mirrors.close`). Machines that mirror each other show the same trees (`Mirrors.unfold`).
-/

namespace SlotScript

variable {R S : Slot → Slot → Prop}

/-! ## Tables and errors -/

/-- The tables bind the same names in the same order to related slots. -/
def Bindings.Alike (R : Slot → Slot → Prop) (t t' : Bindings) : Prop :=
  List.Forall₂ (fun entry entry' => entry.1 = entry'.1 ∧ R entry.2 entry'.2) t.toList t'.toList

namespace Bindings.Alike

variable {t t' : Bindings} {s s' : Slot}

theorem slots (h : Alike R t t') : List.Forall₂ R t.slots t'.slots := by
  rw [slots_eq, slots_eq]
  exact List.forall₂_map_left_iff.2 (List.forall₂_map_right_iff.2
    (List.Forall₂.imp (fun _ _ h => h.2) h))

theorem flip (h : Alike R t t') : Alike (flip R) t' t :=
  List.Forall₂.imp (fun _ _ h => ⟨h.1.symm, h.2⟩) (List.Forall₂.flip h)

/-- Related slots may be related otherwise. -/
theorem imp (h : Alike R t t') (hi : ∀ s ∈ t.slots, ∀ s' ∈ t'.slots, R s s' → S s s') :
    Alike S t t' := by
  obtain ⟨entries⟩ := t
  obtain ⟨entries'⟩ := t'
  simp only [slots_eq] at hi
  unfold Alike at *
  simp only at h hi ⊢
  induction h with
  | nil => exact .nil
  | cons hab _ ih =>
    rw [List.map_cons, List.map_cons] at hi
    refine .cons ⟨hab.1, hi _ List.mem_cons_self _ List.mem_cons_self hab.2⟩ ?_
    exact ih fun s hs s' hs' => hi s (List.mem_cons_of_mem _ hs) s' (List.mem_cons_of_mem _ hs')

theorem find? (h : Alike R t t') (name : String) : Option.Rel R (t.find? name) (t'.find? name) := by
  obtain ⟨entries⟩ := t
  obtain ⟨entries'⟩ := t'
  rw [find?_eq, find?_eq]
  unfold Alike at h
  simp only at h ⊢
  induction h with
  | nil => exact .none
  | @cons entry entry' _ _ hab _ ih =>
    rw [List.lookup_cons, List.lookup_cons, ← hab.1]
    split
    · exact .some hab.2
    · exact ih

theorem assign_fst (h : Alike R t t') (name : String) :
    Option.Rel R (t.assign name s).1 (t'.assign name s').1 := by
  rw [Bindings.assign_fst, Bindings.assign_fst]
  exact h.find? name

theorem assign (h : Alike R t t') (name : String) (hs : R s s') :
    Alike R (t.assign name s).2 (t'.assign name s').2 := by
  obtain ⟨entries⟩ := t
  obtain ⟨entries'⟩ := t'
  unfold Alike at h ⊢
  rw [toList_assign, toList_assign]
  simp only at h ⊢
  induction h with
  | nil => exact .cons ⟨rfl, hs⟩ .nil
  | @cons entry entry' _ _ hab hrest ih =>
    obtain ⟨key, bound⟩ := entry
    obtain ⟨key', bound'⟩ := entry'
    obtain ⟨rfl, hbound⟩ := hab
    rw [OrderedMap.place, OrderedMap.place]
    split
    · exact .cons ⟨rfl, hs⟩ hrest
    · exact .cons ⟨rfl, hbound⟩ ih

end Bindings.Alike

/-- An error without the slot that it names. -/
def Error.blind : Error → Error
  | .invalidHandle _ => .invalidHandle default
  | e => e

/-- Both results are there and related, or both failed for the same cause, up to the slot it
names. -/
inductive Matched {α γ : Type} (post : α → γ → Prop) : Except Error α → Except Error γ → Prop
  | ok {a : α} {c : γ} (h : post a c) : Matched post (.ok a) (.ok c)
  | error {e e' : Error} (h : e.blind = e'.blind) : Matched post (.error e) (.error e')

theorem Matched.cases {α γ : Type} {post : α → γ → Prop} {x : Except Error α} {y : Except Error γ}
    (h : Matched post x y) : (∃ a c, x = .ok a ∧ y = .ok c ∧ post a c) ∨
      ∃ e e', x = .error e ∧ y = .error e' ∧ e.blind = e'.blind := by
  cases h with
  | ok h => exact .inl ⟨_, _, rfl, rfl, h⟩
  | error h => exact .inr ⟨_, _, rfl, rfl, h⟩

theorem Matched.imp {α γ : Type} {post post' : α → γ → Prop} {x : Except Error α}
    {y : Except Error γ} (h : Matched post x y) (hp : ∀ a c, post a c → post' a c) :
    Matched post' x y := by
  cases h with
  | ok h => exact .ok (hp _ _ h)
  | error h => exact .error h

namespace Machine

open SlotScript.Syntax (Term)

variable {β : Type} {m₁ m₂ n₁ n₂ : Machine β} {ctx₁ ctx₂ : Context} {s t : Slot}
  {rs₁ rs₂ : List Slot}

/-! ## Printed lines -/

theorem lines_discard (m : Machine β) (v : Value β) : (m.discard v).lines = m.lines := by
  unfold discard
  split <;> rfl

theorem Releases.lines (h : Releases m₁ rs₁ n₁) : n₁.lines = m₁.lines := by
  induction h with
  | nil => rfl
  | cons _ _ ih => exact ih.trans (lines_discard _ _)

theorem lines_closeStatement (m : Machine β) (mark : Nat) (result : Option Slot) (ctx : Context) :
    (m.closeStatement mark result ctx).lines = m.lines := by
  obtain ⟨rs, m', hrel, heq, -⟩ := exists_releases_closeStatement m mark result ctx
  rw [heq]
  exact hrel.lines

theorem lines_parse (m : Machine β) (source : List Char) : (m.parse source).2.lines = m.lines := by
  unfold parse
  split
  · rfl
  · split
    · rfl
    · exact loadAll_unchanged lines (fun _ _ => rfl) Releases.lines _ m _ []

/-! ## Mirrors -/

/-- The retained slots of `m₁` were handed out, and the live ones among them are related to retained
slots of `m₂`. -/
def Retains (R : Slot → Slot → Prop) (m₁ m₂ : Machine β) : Prop :=
  ∀ s ∈ m₁.retained, m₁.store.Issued s ∧
    (m₁.store.isLive s = true → ∃ t ∈ m₂.retained, R s t)

/-- Two machines that a script cannot tell apart: related slots hold alike values, the tables bind
the same names to related slots, and the same lines have been printed. -/
structure Mirrors (R : Slot → Slot → Prop) (m₁ m₂ : Machine β) (ctx₁ ctx₂ : Context) : Prop where
  store : m₁.store.Mirrors R m₂.store
  globals : m₁.globals.Alike R m₂.globals
  ctx : Option.Rel (Bindings.Alike R) ctx₁ ctx₂
  retained : Retains R m₁ m₂ ∧ Retains (flip R) m₂ m₁
  lines : m₁.lines = m₂.lines
  depth : m₁.depth = m₂.depth
  maxDepth : m₁.config.maxDepth = m₂.config.maxDepth

namespace Mirrors

theorem symm (h : Mirrors R m₁ m₂ ctx₁ ctx₂) : Mirrors (flip R) m₂ m₁ ctx₂ ctx₁ :=
  ⟨h.store.symm, h.globals.flip, optionRel_imp (optionRel_flip h.ctx) fun _ _ _ _ h => h.flip,
    h.retained.symm, h.lines.symm, h.depth.symm, h.maxDepth.symm⟩

theorem ctx_slots (h : Mirrors R m₁ m₂ ctx₁ ctx₂) : List.Forall₂ R ctx₁.slots ctx₂.slots := by
  cases h.ctx with
  | some ht => exact ht.slots
  | none => exact .nil

theorem roots (h : Mirrors R m₁ m₂ ctx₁ ctx₂) :
    ∀ s ∈ m₁.roots ctx₁, m₁.store.isLive s = true → ∃ t ∈ m₂.roots ctx₂, R s t := by
  intro s hs hl
  rcases mem_roots_iff.1 hs with hs | hs | hs
  · obtain ⟨t, ht, hst⟩ := exists_of_mem_forall₂ h.globals.slots hs
    exact ⟨t, mem_roots_iff.2 (.inl ht), hst⟩
  · obtain ⟨t, ht, hst⟩ := (h.retained.1 s hs).2 hl
    exact ⟨t, mem_roots_iff.2 (.inr (.inl ht)), hst⟩
  · obtain ⟨t, ht, hst⟩ := exists_of_mem_forall₂ h.ctx_slots hs
    exact ⟨t, mem_roots_iff.2 (.inr (.inr ht)), hst⟩

theorem value (h : Mirrors R m₁ m₂ ctx₁ ctx₂) (hst : R s t) :
    Matched (Value.Alike R) (m₁.value s) (m₂.value t) := by
  have hvalue := h.store.value hst
  simp only [Machine.value, Store.get]
  revert hvalue
  generalize m₁.store.get? s = x
  generalize m₂.store.get? t = y
  rintro (hvw | _)
  · exact .ok hvw
  · exact .error rfl

theorem resolve (h : Mirrors R m₁ m₂ ctx₁ ctx₂) (name : String) :
    Matched R (m₁.resolve ctx₁ name) (m₂.resolve ctx₂ name) := by
  have hfind : Option.Rel R (ctx₁.resolve? m₁.globals name) (ctx₂.resolve? m₂.globals name) := by
    have hglobals := h.globals.find? name
    cases h.ctx with
    | none => exact hglobals
    | some ht =>
      have hlocal := ht.find? name
      rw [Context.resolve?_some, Context.resolve?_some]
      revert hlocal
      generalize Bindings.find? _ name = x
      generalize Bindings.find? _ name = y
      rintro (hst | _)
      · exact .some hst
      · exact hglobals
  unfold Machine.resolve
  revert hfind
  generalize ctx₁.resolve? m₁.globals name = x
  generalize ctx₂.resolve? m₂.globals name = y
  rintro (hst | _)
  · exact .ok hst
  · exact .error rfl

end Mirrors

/-! ## Showing slots -/

theorem matched_collect {α γ δ : Type} {P : α → γ → Prop} {f : α → Except Error δ}
    {g : γ → Except Error δ} {members : List α} {members' : List γ}
    (hm : List.Forall₂ P members members') (hfg : ∀ a c, P a c → Matched Eq (f a) (g c)) :
    Matched Eq (collect f members) (collect g members') := by
  induction hm with
  | nil => exact .ok rfl
  | @cons a c members members' hac _ ih =>
    rw [collect, collect]
    rcases (hfg a c hac).cases with ⟨d, _, hf, hg, rfl⟩ | ⟨e, e', hf, hg, he⟩
    · rw [hf, hg]
      rcases ih.cases with ⟨ds, _, hfs, hgs, rfl⟩ | ⟨e, e', hfs, hgs, he⟩
      · rw [hfs, hgs]
        exact .ok rfl
      · rw [hfs, hgs]
        exact .error he
    · rw [hf, hg]
      exact .error he

namespace Mirrors

/-- Related slots unfold to the same tree. -/
theorem unfold (h : Mirrors R m₁ m₂ ctx₁ ctx₂) (room : Nat) (hst : R s t) :
    Matched Eq (m₁.unfold room s) (m₂.unfold room t) := by
  induction room generalizing s t with
  | zero =>
    rw [Machine.unfold, Machine.unfold, h.maxDepth]
    exact .error rfl
  | succ room ih =>
    rw [Machine.unfold, Machine.unfold]
    rcases (h.value hst).cases with ⟨v, w, hv, hw, hvw⟩ | ⟨e, e', hv, hw, he⟩
    · rw [hv, hw]
      cases hvw with
      | leaf hleaf =>
        cases v with
        | list items => exact absurd rfl hleaf
        | _ => exact .ok rfl
      | list hitems =>
        have hall := matched_collect hitems fun a c hac => ih hac
        rcases hall.cases with ⟨trees, _, h₁, h₂, rfl⟩ | ⟨e, e', h₁, h₂, he⟩
        · simp only [h₁, h₂]
          exact .ok rfl
        · simp only [h₁, h₂]
          exact .error he
    · rw [hv, hw]
      exact .error he

theorem render (h : Mirrors R m₁ m₂ ctx₁ ctx₂) (hst : R s t) :
    Matched Eq (m₁.render s) (m₂.render t) := by
  rw [Machine.render, Machine.render, ← h.maxDepth]
  rcases (h.unfold m₁.config.maxDepth hst).cases with ⟨tree, _, h₁, h₂, rfl⟩ | ⟨e, e', h₁, h₂, he⟩
  · rw [h₁, h₂]
    exact .ok rfl
  · rw [h₁, h₂]
    exact .error he

end Mirrors

/-! ## Releasing -/

/-- Slots that stay retained stay related. -/
theorem Retains.imp (h : Retains R m₁ m₂) (hsub : n₁.retained ⊆ m₁.retained)
    (hissued : ∀ s, m₁.store.Issued s → n₁.store.Issued s)
    (hlive : ∀ s, m₁.store.Issued s → n₁.store.isLive s = true → m₁.store.isLive s = true)
    (hmem : ∀ s ∈ n₁.retained, ∀ t ∈ m₂.retained, R s t → n₁.store.isLive s = true →
      t ∈ n₂.retained ∧ S s t) : Retains S n₁ n₂ := by
  intro s hs
  obtain ⟨hi, hrel⟩ := h s (hsub hs)
  refine ⟨hissued s hi, fun hl => ?_⟩
  obtain ⟨t, ht, hst⟩ := hrel (hlive s hi hl)
  exact ⟨t, hmem s hs t ht hst hl⟩

namespace Mirrors

/-- Releasing related slots on both sides. -/
theorem releases (h : Mirrors R m₁ m₂ ctx₁ ctx₂) (hrel₁ : Releases m₁ rs₁ n₁)
    (hrel₂ : Releases m₂ rs₂ n₂) (hmem : ∀ {s t}, R s t → (s ∈ rs₁ ↔ t ∈ rs₂))
    (hlast₁ : m₁.store.Lasts n₁.store) (hlast₂ : m₂.store.Lasts n₂.store) :
    Mirrors R n₁ n₂ ctx₁ ctx₂ := by
  have hretained : ∀ {m n : Machine β} {rs : List Slot}, Releases m rs n →
      ∀ t, t ∈ n.retained ↔ t ∈ m.retained ∧ t ∉ rs := fun hrel t => by
    rw [hrel.retained, List.mem_filter, decide_eq_true_eq]
  have hkept : ∀ {m n : Machine β} {rs : List Slot} {t : Slot}, Releases m rs n →
      n.store.isLive t = true → t ∉ rs := fun hrel hl hm =>
    ne_of_isLive hl (hrel.get?_of_mem hm) rfl
  refine ⟨h.store.restrict id hlast₁ hlast₂ fun {s t} hst => ?_, ?_, h.ctx, ⟨?_, ?_⟩, ?_, ?_, ?_⟩
  · by_cases hs : s ∈ rs₁
    · rw [hrel₁.get?_of_mem hs, hrel₂.get?_of_mem ((hmem hst).1 hs)]
      exact .none
    · rw [hrel₁.get?_of_notMem hs, hrel₂.get?_of_notMem (mt (hmem hst).2 hs)]
      exact h.store.value hst
  · rw [hrel₁.globals, hrel₂.globals]
    exact h.globals
  · refine h.retained.1.imp (fun s hs => ((hretained hrel₁ s).1 hs).1) (fun s => hlast₁.issued)
      (fun s => hlast₁.isLive) fun s _ t ht hst hl => ⟨(hretained hrel₂ t).2 ⟨ht, ?_⟩, hst⟩
    exact mt (hmem hst).2 (hkept hrel₁ hl)
  · refine h.retained.2.imp (fun s hs => ((hretained hrel₂ s).1 hs).1) (fun s => hlast₂.issued)
      (fun s => hlast₂.isLive) fun s _ t ht hst hl => ⟨(hretained hrel₁ t).2 ⟨ht, ?_⟩, hst⟩
    exact mt (hmem hst).1 (hkept hrel₂ hl)
  · rw [hrel₁.lines, hrel₂.lines]
    exact h.lines
  · rw [hrel₁.depth, hrel₂.depth]
    exact h.depth
  · rw [hrel₁.config, hrel₂.config]
    exact h.maxDepth

/-- Releasing what is below related slots and not reached from a root. -/
theorem release (h : Mirrors R m₁ m₂ ctx₁ ctx₂) (hst : R s t)
    (hlast₁ : m₁.store.Lasts (m₁.releaseUnreachable ctx₁ s).store)
    (hlast₂ : m₂.store.Lasts (m₂.releaseUnreachable ctx₂ t).store) :
    Mirrors R (m₁.releaseUnreachable ctx₁ s) (m₂.releaseUnreachable ctx₂ t) ctx₁ ctx₂ := by
  obtain ⟨rs₁, hrel₁, hrs₁⟩ := exists_releases_releaseAllUnreachable m₁ ctx₁ [s]
  obtain ⟨rs₂, hrel₂, hrs₂⟩ := exists_releases_releaseAllUnreachable m₂ ctx₂ [t]
  refine h.releases hrel₁ hrel₂ (fun {a b} hab => ?_) hlast₁ hlast₂
  rw [hrs₁, hrs₂, h.store.isLive hab]
  refine and_congr_right fun hl => ?_
  have hla : m₁.store.isLive a = true := h.store.isLive hab ▸ hl
  have hbelow : m₁.store.Reaches [s] a ↔ m₂.store.Reaches [t] b := by
    refine h.store.reaches_iff (fun r hr _ => ⟨t, List.mem_singleton_self t, ?_⟩)
      (fun r hr _ => ⟨s, List.mem_singleton_self s, ?_⟩) hab hla
    · rwa [List.mem_singleton.1 hr]
    · rwa [List.mem_singleton.1 hr]
  have hroots : m₁.store.Reaches (m₁.roots ctx₁) a ↔ m₂.store.Reaches (m₂.roots ctx₂) b :=
    h.store.reaches_iff h.roots h.symm.roots hab hla
  rw [hbelow, hroots]

end Mirrors

/-! ## Storing and reading -/

theorem isLive_allocate {m : Machine β} (hm : m.store.WF) (v : Value β) (hs : m.store.Issued s) :
    (m.allocate v).2.store.isLive s = m.store.isLive s := by
  have hne : s ≠ m.store.nextSlot := fun heq => Store.not_issued_nextSlot hm (heq ▸ hs)
  rw [Store.isLive, Stores.get?_allocate hm, if_neg hne]
  rfl

namespace Mirrors

/-- Storing alike values relates the new slots. -/
theorem allocate (h : Mirrors R m₁ m₂ ctx₁ ctx₂) {v w : Value β} (hvw : Value.Alike R v w) :
    Mirrors (fun s t => R s t ∨ s = m₁.store.nextSlot ∧ t = m₂.store.nextSlot) (m₁.allocate v).2
      (m₂.allocate w).2 ctx₁ ctx₂ := by
  obtain ⟨hwf₁, hwf₂⟩ := h.store.wf
  refine ⟨h.store.allocate hvw, h.globals.imp fun _ _ _ _ => .inl,
    optionRel_imp h.ctx fun _ _ _ _ ht => ht.imp fun _ _ _ _ => .inl, ⟨?_, ?_⟩, h.lines, h.depth,
    h.maxDepth⟩
  · refine h.retained.1.imp (List.Subset.refl _) (fun s => Store.issued_allocate hwf₁)
      (fun s hi hl => ?_) fun s _ t ht hst _ => ⟨ht, .inl hst⟩
    rwa [isLive_allocate hwf₁ v hi] at hl
  · refine h.retained.2.imp (List.Subset.refl _) (fun s => Store.issued_allocate hwf₂)
      (fun s hi hl => ?_) fun s _ t ht hst _ => ⟨ht, .inl hst⟩
    rwa [isLive_allocate hwf₂ w hi] at hl

/-- Something that changes no slot on either side. -/
theorem undoes (h : Mirrors R m₁ m₂ ctx₁ ctx₂) (hu₁ : Undoes m₁ n₁) (hu₂ : Undoes m₂ n₂)
    (hl₁ : n₁.lines = m₁.lines) (hl₂ : n₂.lines = m₂.lines) (hlast₁ : m₁.store.Lasts n₁.store)
    (hlast₂ : m₂.store.Lasts n₂.store) : Mirrors R n₁ n₂ ctx₁ ctx₂ := by
  obtain ⟨es₁, hrun₁, -⟩ := hu₁.run
  obtain ⟨es₂, hrun₂, -⟩ := hu₂.run
  refine ⟨h.store.restrict id hlast₁ hlast₂ fun hst => ?_, ?_, h.ctx, ⟨?_, ?_⟩, ?_, ?_, ?_⟩
  · rw [hu₁.get?, hu₂.get?]
    exact h.store.value hst
  · rw [hu₁.globals, hu₂.globals]
    exact h.globals
  · refine h.retained.1.imp hu₁.retained (fun s => hlast₁.issued) (fun s => hlast₁.isLive)
      fun s _ t ht hst hl => ⟨hu₂.mem_retained t ht ?_, hst⟩
    rw [← h.store.isLive hst]
    exact hlast₁.isLive (h.store.issued hst).1 hl
  · refine h.retained.2.imp hu₂.retained (fun s => hlast₂.issued) (fun s => hlast₂.isLive)
      fun s _ t ht hst hl => ⟨hu₁.mem_retained t ht ?_, hst⟩
    rw [h.store.isLive hst]
    exact hlast₂.isLive (h.store.issued hst).2 hl
  · rw [hl₁, hl₂]
    exact h.lines
  · rw [hrun₁.depth, hrun₂.depth]
    exact h.depth
  · rw [hrun₁.config, hrun₂.config]
    exact h.maxDepth

end Mirrors

mutual

/-- The same term is loaded into related slots. -/
theorem mirrors_load : ∀ (term : Term) {R : Slot → Slot → Prop} {m₁ m₂ n₁ n₂ : Machine β}
    {room : Nat} {s t : Slot}, Mirrors R m₁ m₂ ctx₁ ctx₂ → m₁.load room term = (.ok s, n₁) →
      m₂.load room term = (.ok t, n₂) →
        ∃ R', (∀ a b, R a b → R' a b) ∧ Mirrors R' n₁ n₂ ctx₁ ctx₂ ∧ R' s t
  | .number _, R, m₁, m₂, n₁, n₂, room, s, t, h, h₁, h₂
  | .text _, R, m₁, m₂, n₁, n₂, room, s, t, h, h₁, h₂
  | .symbol _, R, m₁, m₂, n₁, n₂, room, s, t, h, h₁, h₂ => by
    simp only [load] at h₁ h₂
    cases h₁
    cases h₂
    exact ⟨_, fun _ _ => .inl, h.allocate (.leaf nofun), .inr ⟨rfl, rfl⟩⟩
  | .list items, R, m₁, m₂, n₁, n₂, 0, s, t, h, h₁, h₂ => by
    simp only [load] at h₁
    cases h₁
  | .list items, R, m₁, m₂, n₁, n₂, room + 1, s, t, h, h₁, h₂ => by
    simp only [load] at h₁ h₂
    split at h₁
    · cases h₁
    · next slots₁ k₁ hl₁ =>
      cases h₁
      split at h₂
      · cases h₂
      · next slots₂ k₂ hl₂ =>
        cases h₂
        obtain ⟨R', hsub, hmid, hslots⟩ := mirrors_loadAll items h .nil hl₁ hl₂
        exact ⟨_, fun a b hab => .inl (hsub a b hab), hmid.allocate (.list hslots),
          .inr ⟨rfl, rfl⟩⟩

theorem mirrors_loadAll : ∀ (terms : List Term) {R : Slot → Slot → Prop} {m₁ m₂ n₁ n₂ : Machine β}
    {room : Nat} {before₁ before₂ slots₁ slots₂ : List Slot}, Mirrors R m₁ m₂ ctx₁ ctx₂ →
      List.Forall₂ R before₁ before₂ → m₁.loadAll room before₁ terms = (.ok slots₁, n₁) →
        m₂.loadAll room before₂ terms = (.ok slots₂, n₂) →
          ∃ R', (∀ a b, R a b → R' a b) ∧ Mirrors R' n₁ n₂ ctx₁ ctx₂ ∧ List.Forall₂ R' slots₁ slots₂
  | [], R, m₁, m₂, n₁, n₂, room, before₁, before₂, slots₁, slots₂, h, hbefore, h₁, h₂ => by
    simp only [loadAll] at h₁ h₂
    cases h₁
    cases h₂
    exact ⟨R, fun _ _ hab => hab, h, List.rel_reverse hbefore⟩
  | term :: terms, R, m₁, m₂, n₁, n₂, room, before₁, before₂, slots₁, slots₂, h, hbefore, h₁,
      h₂ => by
    simp only [loadAll] at h₁ h₂
    split at h₁
    · cases h₁
    · next s k₁ hl₁ =>
      split at h₂
      · cases h₂
      · next t k₂ hl₂ =>
        obtain ⟨R₁, hsub₁, hmid, hst⟩ := mirrors_load term h hl₁ hl₂
        obtain ⟨R₂, hsub₂, hend, hslots⟩ := mirrors_loadAll terms hmid
          (.cons hst (hbefore.imp hsub₁)) h₁ h₂
        exact ⟨R₂, fun a b hab => hsub₂ a b (hsub₁ a b hab), hend, hslots⟩

end

/-- Whether a text can be read, and why not, depends on the limit only. -/
theorem parse_fst_cases (h : m₁.config.maxDepth = m₂.config.maxDepth) (source : List Char) :
    (∃ e, (m₁.parse source).1 = .error e ∧ (m₂.parse source).1 = .error e) ∨
      ∃ expr₁ expr₂, (m₁.parse source).1 = .ok expr₁ ∧ (m₂.parse source).1 = .ok expr₂ := by
  by_cases hbal : Syntax.Balanced source
  · obtain ⟨d, hd⟩ := hbal
    by_cases hdeep : m₁.config.maxDepth ≤ d
    · exact .inl ⟨_, parse_of_deep hd hdeep, h ▸ parse_of_deep hd (h ▸ hdeep)⟩
    · obtain ⟨expr₁, h₁⟩ := exists_parse_eq_ok hd (Nat.lt_of_not_le hdeep)
      obtain ⟨expr₂, h₂⟩ := exists_parse_eq_ok (m := m₂) hd (h ▸ Nat.lt_of_not_le hdeep)
      exact .inr ⟨expr₁, expr₂, h₁, h₂⟩
  · obtain ⟨e, he⟩ := Syntax.exists_words_eq_error hbal
    refine .inl ?_
    by_cases hm : 1 ≤ m₁.config.maxDepth
    · rw [parse_of_words_eq_error hm he, parse_of_words_eq_error (h ▸ hm) he]
      exact ⟨_, rfl, rfl⟩
    · have hzero := Nat.eq_zero_of_not_pos hm
      have hzero₂ := h ▸ hzero
      unfold parse
      rw [hzero, hzero₂]
      exact ⟨_, rfl, rfl⟩

theorem exists_loadAll_of_parse {m m' : Machine β} {source : List Char} {expr : List Slot}
    (h : m.parse source = (.ok expr, m')) :
    ∃ room terms, m.config.maxDepth = room + 1 ∧ Term.read source = .ok terms ∧
      m.loadAll room [] terms = (.ok expr, m') := by
  unfold parse at h
  split at h
  · cases h
  · next room hroom =>
    split at h
    · cases h
    · next terms hread => exact ⟨room, terms, hroom, hread, h⟩

/-- A text is read alike on both sides. -/
theorem Mirrors.parse (h : Mirrors R m₁ m₂ ctx₁ ctx₂) (source : List Char)
    (hlast₁ : m₁.store.Lasts (m₁.parse source).2.store)
    (hlast₂ : m₂.store.Lasts (m₂.parse source).2.store) :
    ∃ R', (∀ a b, R a b → R' a b) ∧
      Mirrors R' (m₁.parse source).2 (m₂.parse source).2 ctx₁ ctx₂ ∧
      Matched (List.Forall₂ R') (m₁.parse source).1 (m₂.parse source).1 := by
  obtain ⟨hwf₁, hwf₂⟩ := h.store.wf
  have hlines₁ := lines_parse m₁ source
  have hlines₂ := lines_parse m₂ source
  have hcases := parse_fst_cases h.maxDepth source
  cases hp₁ : m₁.parse source with
  | mk result₁ n₁ =>
    cases hp₂ : m₂.parse source with
    | mk result₂ n₂ =>
      rw [hp₁] at hlast₁ hlines₁ hcases
      rw [hp₂] at hlast₂ hlines₂ hcases
      rcases hcases with ⟨e, rfl, rfl⟩ | ⟨expr₁, expr₂, rfl, rfl⟩
      · exact ⟨R, fun _ _ hab => hab, h.undoes (undoes_of_parse hwf₁ hp₁) (undoes_of_parse hwf₂ hp₂)
          hlines₁ hlines₂ hlast₁ hlast₂, .error rfl⟩
      · obtain ⟨room₁, terms₁, hroom₁, hread₁, hload₁⟩ := exists_loadAll_of_parse hp₁
        obtain ⟨room₂, terms₂, hroom₂, hread₂, hload₂⟩ := exists_loadAll_of_parse hp₂
        have hmax := h.maxDepth
        obtain rfl : room₁ = room₂ := by omega
        obtain rfl : terms₁ = terms₂ := Except.ok.inj (hread₁.symm.trans hread₂)
        obtain ⟨R', hsub, hend, hslots⟩ := mirrors_loadAll terms₁ h .nil hload₁ hload₂
        exact ⟨R', hsub, hend, .ok hslots⟩

/-! ## The end of a statement on one side -/

namespace Mirrors

/-- One side ends a statement. Slots stay related if they were related before the statement or are
reached from what is kept. -/
theorem close {R₀ : Slot → Slot → Prop} {mark : Nat} {kept : Option Slot}
    (h₀ : m₁.store.Mirrors R₀ m₂.store) (h : Mirrors R n₁ n₂ ctx₁ ctx₂)
    (hsub : ∀ a b, R₀ a b → R a b) (hfades₁ : m₁.store.Fades n₁.store)
    (hfades₂ : m₂.store.Fades n₂.store)
    (hj : ∀ s ∈ n₁.store.journal.toList.drop mark, ¬ m₁.store.Issued s)
    (hlast₁ : n₁.store.Lasts (n₁.closeStatement mark kept ctx₁).store)
    (hlast₂ : n₂.store.Lasts n₂.store) :
    Mirrors (fun s t => R₀ s t ∨ R s t ∧ n₁.store.Reaches (kept.toList ++ n₁.roots ctx₁) s)
      (n₁.closeStatement mark kept ctx₁) n₂ ctx₁ ctx₂ := by
  have hroot : ∀ {s}, s ∈ n₁.roots ctx₁ → n₁.store.Reaches (kept.toList ++ n₁.roots ctx₁) s :=
    fun hs => .root (List.mem_append_right _ hs)
  have hreached : ∀ {s}, n₁.store.Reaches (kept.toList ++ n₁.roots ctx₁) s →
      (n₁.closeStatement mark kept ctx₁).store.get? s = n₁.store.get? s := fun hs => by
    rw [get?_closeStatement, if_neg fun hc => hc.2 hs]
  obtain ⟨rs, k, hrel, heq, hrs⟩ := exists_releases_closeStatement n₁ mark kept ctx₁
  have hretained : ∀ s, s ∈ (n₁.closeStatement mark kept ctx₁).retained ↔ s ∈ n₁.retained := by
    intro s
    rw [heq]
    show s ∈ k.retained ↔ s ∈ n₁.retained
    rw [hrel.retained, List.mem_filter, decide_eq_true_eq]
    refine and_iff_left_of_imp fun hs hmem => ((hrs s).1 hmem).2.2 ?_
    exact hroot (mem_roots_iff.2 (.inr (.inl hs)))
  refine ⟨h.store.restrict (fun hst => hst.elim (hsub _ _) And.left) hlast₁ hlast₂ ?_, ?_, ?_,
    ⟨?_, ?_⟩, ?_, ?_, ?_⟩
  · rintro s t (hst | ⟨hst, hs⟩)
    · -- The slots were related before, so the journal does not have them, nor their items.
      obtain ⟨hi₁, hi₂⟩ := h₀.issued hst
      rw [get?_closeStatement, if_neg fun hc => hj s hc.1 hi₁]
      refine optionRel_imp (h.store.value (hsub s t hst)) fun v w hv hw _ => ?_
      have hthen := h₀.value hst
      rw [← (hfades₁ s hi₁).resolve_right (by rw [hv]; nofun), hv,
        ← (hfades₂ t hi₂).resolve_right (by rw [hw]; nofun), hw] at hthen
      cases hthen with
      | some hvw => exact hvw.imp fun _ _ _ _ => .inl
    · rw [hreached hs]
      refine optionRel_imp (h.store.value hst) fun v w hv _ hvw => hvw.imp fun a ha b _ hab => ?_
      exact .inr ⟨hab, hs.item (Store.items_of_get? hv ▸ ha)⟩
  · rw [globals_closeStatement]
    exact h.globals.imp fun s hs t _ hst => .inr ⟨hst, hroot (mem_roots_iff.2 (.inl hs))⟩
  · refine optionRel_imp h.ctx fun t _ ht _ htt => htt.imp fun s hs _ _ hst => ?_
    exact .inr ⟨hst, hroot (mem_roots_iff.2 (.inr (.inr (by rw [ht]; exact hs))))⟩
  · refine h.retained.1.imp (fun s => (hretained s).1) (fun s => hlast₁.issued)
      (fun s => hlast₁.isLive) fun s hs t ht hst _ => ⟨ht, .inr ⟨hst, ?_⟩⟩
    exact hroot (mem_roots_iff.2 (.inr (.inl ((hretained s).1 hs))))
  · refine h.retained.2.imp (List.Subset.refl _) (fun _ hi => hi) (fun _ _ hl => hl)
      fun s _ t ht hst _ => ⟨(hretained t).2 ht, .inr ⟨hst, ?_⟩⟩
    exact hroot (mem_roots_iff.2 (.inr (.inl ht)))
  · rw [lines_closeStatement]
    exact h.lines
  · rw [depth_closeStatement]
    exact h.depth
  · rw [config_closeStatement]
    exact h.maxDepth

end Mirrors

end Machine

end SlotScript
