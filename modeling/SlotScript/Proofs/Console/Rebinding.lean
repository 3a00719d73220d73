import SlotScript.Proofs.Console.Moves
import SlotScript.Proofs.Machine.Shedding

/-!
# Rebinding a name releases what it put out of use

When `set` binds a name that was bound before, the old slot may be all that kept other slots in use.
`releaseUnreachable_exact` says what is released then: the live slots on paths from the old slot
that are not in use, on every machine and whatever the lists below the old slot look like. What is
in use stays, so the search that is made anew before every release has the same result each time;
and these slots are the ones that the binding put out of use, since every other root is a root
still.
-/

namespace SlotScript.Console

open Machine

variable {β : Type} {m m₀ : Machine β} {ctx ctx₀ : Context} {p t v : Slot}

/-! ## The loop -/

/-- What the release does with a pending slot: one that is in use is passed over. -/
def takeOutUnused (ctx : Context) (m : Machine β) (s : Slot) : Machine β × List Slot :=
  if m.isReachable ctx s then (m, []) else m.takeOut s

/-- The release ends, after as many turns as there are pending slots and items of the lists that it
releases. -/
theorem exists_iterate_releaseAllUnreachable (m : Machine β) (ctx : Context) (pending : List Slot) :
    ∃ n, n + (m.releaseAllUnreachable ctx pending).store.weight =
        pending.length + m.store.weight ∧
      (workOff (takeOutUnused ctx))^[n] (m, pending) =
        (m.releaseAllUnreachable ctx pending, []) := by
  fun_induction releaseAllUnreachable m ctx pending with
  | case1 m => exact ⟨0, rfl, rfl⟩
  | case2 m s pending hs ih =>
    have hvisit : takeOutUnused ctx m s = (m, []) := if_pos hs
    exact exists_iterate_cons hvisit rfl ih
  | case3 m s pending hs e hv ih =>
    have hvisit : takeOutUnused ctx m s = (m, []) := (if_neg hs).trans (takeOut_of_error hv)
    exact exists_iterate_cons hvisit rfl ih
  | case4 m s pending hs v hv ih =>
    have hvisit : takeOutUnused ctx m s = (m.vacate s v, v.items.reverse) :=
      (if_neg hs).trans (takeOut_of_ok hv)
    exact exists_iterate_cons hvisit (weight_takeOut hv) ih

/-! ## What a binding puts out of use -/

theorem rebinds_of_assign {call : Evaluator β} {name : String}
    (h : exec call (Routine.assign name v) ctx₀ m₀ = ((.ok (some p), ctx), m)) :
    Rebinds m₀ ctx₀ v [p] m ctx := by
  rw [exec_assign] at h
  cases ctx₀ with
  | none =>
    simp only [Prod.mk.injEq, Except.ok.injEq] at h
    obtain ⟨⟨hp, rfl⟩, rfl⟩ := h
    rw [← Option.toList_some, ← hp]
    exact rebinds_global
  | some table =>
    simp only [Prod.mk.injEq, Except.ok.injEq] at h
    obtain ⟨⟨hp, rfl⟩, rfl⟩ := h
    rw [← Option.toList_some, ← hp]
    exact rebinds_local

/-- What a binding puts out of use lies on paths from the old slot. -/
theorem Rebinds.unused_iff (h : Rebinds m₀ ctx₀ v [p] m ctx) :
    m.store.Path p t ∧ ¬ m.InUse none ctx t ↔ m₀.InUse none ctx₀ t ∧ ¬ m.InUse none ctx t := by
  refine and_congr_left fun hunused => ?_
  rw [← reaches_roots_iff_inUse] at hunused ⊢
  rw [h.store] at hunused ⊢
  constructor
  · intro hpath
    exact hpath.reaches (h.previous_mem p (List.mem_singleton_self p))
  · intro hreach
    obtain ⟨r, hr, hpath⟩ := Store.reaches_iff_exists_path.1 hreach
    rcases h.mem_roots' r hr with hr | hr
    · exact absurd (hpath.reaches hr) hunused
    · rwa [← List.mem_singleton.1 hr]

/-- After a name was bound anew, the release that starts at its old slot `p` ends, and it releases
exactly the live slots on paths from `p` that are not in use, each one once. The slots in use and
the retained ones stay as they are. If it was this binding that took the name from `p`, then what is
released is what was in use before the binding and is not in use after it. -/
theorem releaseUnreachable_exact (m : Machine β) (ctx : Context) (p : Slot) :
    let after := m.releaseUnreachable ctx p
    (∃ n, n + after.store.weight = 1 + m.store.weight ∧
      (workOff (takeOutUnused ctx))^[n] (m, [p]) = (after, [])) ∧
    (∃ rs, Sheds m rs (fun t => m.store.Path p t ∧ ¬ m.InUse none ctx t) after ∧
      ∀ call name v m₀ ctx₀,
        exec call (Routine.assign name v) ctx₀ m₀ = ((.ok (some p), ctx), m) →
          Sheds m rs (fun t => m₀.InUse none ctx₀ t ∧ ¬ m.InUse none ctx t) after) ∧
    after.retained = m.retained ∧ ∀ t, after.InUse none ctx t ↔ m.InUse none ctx t := by
  intro after
  obtain ⟨rs, hrel, hrs⟩ := exists_releases_releaseAllUnreachable m ctx [p]
  have hmem : ∀ t, t ∈ rs ↔
      m.store.isLive t = true ∧ m.store.Path p t ∧ ¬ m.InUse none ctx t := fun t => by
    rw [hrs, Store.reaches_singleton_iff, reaches_roots_iff_inUse]
  have hunused : ∀ r ∈ rs, ¬ m.InUse none ctx r := fun r hr => ((hmem r).1 hr).2.2
  refine ⟨exists_iterate_releaseAllUnreachable m ctx [p], ⟨rs, hrel.sheds hmem, ?_⟩, ?_,
    fun t => hrel.inUse_iff hunused⟩
  · intro call name v m₀ ctx₀ hassign
    refine hrel.sheds fun t => (hmem t).trans (and_congr_right fun _ => ?_)
    exact (rebinds_of_assign hassign).unused_iff
  · exact hrel.retained_eq fun r hr => mt reaches_roots_iff_inUse.1 (hunused r hr)

/-- The name `x` is bound to a list that holds itself, a text of its own, a stale slot and the text
that `y` is bound to. Binding `x` to that text puts the list and its own text out of use; both are
released, and the shared text stays. -/
theorem releaseUnreachable_exact_shared :
    let m₀ : Machine Unit := (((((fresh {} : Machine Unit).register "y" (.text "shared")).2.allocate
      (.text "own")).2.register "x" (.list [⟨2, 0⟩, ⟨1, 0⟩, ⟨9, 0⟩, ⟨0, 0⟩])).2)
    let call : Evaluator Unit := fun _ ctx m => ((.ok none, ctx), m)
    let m := (exec call (Routine.assign "x" ⟨0, 0⟩) none m₀).2
    let after := m.releaseUnreachable none ⟨2, 0⟩
    exec call (Routine.assign "x" ⟨0, 0⟩) none m₀ = ((.ok (some ⟨2, 0⟩), none), m) ∧
      m₀.isReachable none ⟨1, 0⟩ = true ∧ m.isReachable none ⟨1, 0⟩ = false ∧
      after.store.get? ⟨1, 0⟩ = none ∧ after.store.slots = [⟨0, 0⟩] := by
  intro m₀ call m after
  have hassign : exec call (Routine.assign "x" ⟨0, 0⟩) none m₀ = ((.ok (some ⟨2, 0⟩), none), m) :=
    rfl
  have hbefore : m₀.isReachable none ⟨1, 0⟩ = true := by cbv
  have hafter : m.isReachable none ⟨1, 0⟩ = false := by cbv
  have hslots : (m.releaseUnreachable none ⟨2, 0⟩).store.slots = [⟨0, 0⟩] := by cbv
  refine ⟨hassign, hbefore, hafter, ?_, hslots⟩
  obtain ⟨-, ⟨rs, -, hbinding⟩, -, -⟩ := releaseUnreachable_exact m none ⟨2, 0⟩
  have hsheds := hbinding call "x" ⟨0, 0⟩ m₀ none hassign
  have hlive : m.store.isLive ⟨1, 0⟩ = true := by cbv
  have hmem : (⟨1, 0⟩ : Slot) ∈ rs := by
    refine (hsheds.mem_iff _).2 ⟨hlive, ?_, fun huse => ?_⟩
    · exact reaches_roots_iff_inUse.1 (isReachable_iff.1 hbefore)
    · have hreach := isReachable_iff.2 (reaches_roots_iff_inUse.2 huse)
      exact absurd (hafter.symm.trans hreach) Bool.false_ne_true
  rw [hsheds.get?, if_pos hmem]

end SlotScript.Console
