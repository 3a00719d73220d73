import Mathlib
import SlotScript.Proofs.Console.Handles

/-!
# Evaluating a text leaks nothing

`Reachable m es` says that the command line's machine can come to be `m`, after the events `es`: it
starts with its three builtins, and then the embedding program may ask it for anything, with slots
that it was handed. `eval_leaks_nothing` is about every text that is evaluated on such a machine.
Whether the evaluation succeeds or fails, what is live after it and was not before is reached from
its result, a binding or a retained slot; and if it fails and the bindings are what they were,
exactly the slots are live that were live before.

The second part needs that no place of the store comes round to its first generation: a binding to a
stale slot would then be a binding to a new value.
-/

namespace SlotScript.Console

open Machine
open Event (Sparing)
open Store (Accounts)

variable {β : Type} {m m' m₀ : Machine β} {ctx ctx' : Context} {es es' : List Event} {s : Slot}

/-! ## A failed evaluation -/

/-- The slots that a request mentions. -/
def mentioned : Request β → List Slot
  | .allocate v => v.items
  | .release s => [s]
  | .releaseTree s => [s]
  | .releaseUnreachable s ctx => s :: ctx.slots
  | .duplicate s => [s]
  | .value s => [s]
  | .overwrite s v => s :: v.items
  | .push list item => [list, item]
  | .retain s => [s]
  | .unretain s => [s]
  | .isRetained s => [s]
  | .isReachable s ctx => s :: ctx.slots
  | .globals => []
  | .assignGlobal _ s => [s]
  | .removeGlobal _ => []
  | .parse _ => []
  | .evaluate expr ctx => expr ++ ctx.slots
  | .argument s ctx => s :: ctx.slots
  | .eval _ ctx => ctx.slots
  | .render s => [s]
  | .renderAll expr => expr
  | .depth => []
  | .print _ => []
  | .handOver s => [s]

/-- From `m` to `m'` a grounded machine stays grounded, if no place comes round and the slots
`known` were handed out. -/
def Grounds (known : List Slot) (m m' : Machine β) : Prop :=
  ∃ es', m.store.Changes es' m'.store ∧ ∀ es, Accounts es m.store → Sparing (es ++ es') →
    (∀ s ∈ known, m.store.Issued s) → Grounded m none → Grounded m' none

namespace Grounds

variable {known : List Slot}

theorem refl (m : Machine β) : Grounds known m m :=
  ⟨[], .refl _, fun _ _ _ _ => id⟩

theorem outside (hs : m'.store = m.store)
    (hroots : ∀ s ∈ m'.roots none, s ∈ m.roots none ∨ s ∈ known) : Grounds known m m' := by
  refine ⟨[], hs ▸ .refl _, ?_⟩
  intro es ha hes hknown h
  refine h.changes ha (hs ▸ .refl _) hes (fun s hmem => ?_) fun s t ht => .inl (hs ▸ ht)
  exact (hroots s hmem).imp id fun hk => .inl (hknown s hk)

theorem releases {rs : List Slot} (h : Releases m rs m') : Grounds known m m' :=
  ⟨rs.map .released, h.changes fun _ => rfl, fun _ ha hes _ hg =>
    hg.releases ha h (fun _ => rfl) hes⟩

theorem allocate (m : Machine β) (v : Value β)
    (hv : ∀ t ∈ v.items, t ∈ known ∨ ∃ r, t ∈ m.store.items r) :
    Grounds known m (m.allocate v).2 := by
  have hst : Stores m [m.store.nextSlot] (m.allocate v).2 := .snoc (.nil m) v
  refine ⟨[.stored m.store.nextSlot], hst.run.changes, ?_⟩
  intro es ha hes hknown hg
  refine hg.stores ha hst hes fun s hs t ht => .inl ?_
  have hget : (m.allocate v).2.store.get? m.store.nextSlot = some v := by
    rw [Stores.get?_allocate ha.wf, if_pos rfl]
  rw [List.mem_singleton.1 hs, Store.items_of_get? hget] at ht
  rcases hv t ht with hk | ⟨r, hr⟩
  · exact hknown t hk
  · exact hg.items r t hr

theorem put {w : Value β} (hs : m.store.get? s = some w) (v : Value β)
    (hv : ∀ t ∈ v.items, t ∈ known ∨ t ∈ w.items) (hstore : m'.store = m.store.put s v)
    (hglobals : m'.globals = m.globals) (hretained : m'.retained = m.retained) :
    Grounds known m m' := by
  have hc : m.store.Changes [] m'.store := hstore ▸ .put hs v
  refine ⟨[], hc, fun es ha hes hknown hg => hg.changes ha hc hes (fun r hr => .inl ?_)
    fun r t ht => ?_⟩
  · rwa [Machine.roots, hglobals, hretained] at hr
  · by_cases hr : r = s
    · have hget : m'.store.get? r = some v := by rw [hstore, Store.get?_put hs, if_pos hr]
      rw [Store.items_of_get? hget] at ht
      rcases hv t ht with hk | hw
      · exact .inr (.inl (hknown t hk))
      · rw [hr, Store.items_of_get? hs]
        exact .inl hw
    · have hget : m'.store.get? r = m.store.get? r := by rw [hstore, Store.get?_put hs, if_neg hr]
      exact .inl (Store.items_congr hget ▸ ht)

theorem forget (hc : m.store.Changes es' m'.store)
    (h : ∀ es, Accounts es m.store → Sparing (es ++ es') → (∀ s ∈ known, m.store.Issued s) →
      Grounded m ctx → Grounded m' ctx') (hctx : ∀ s ∈ ctx.slots, s ∈ known) :
    Grounds known m m' := by
  refine ⟨es', hc, ?_⟩
  intro es ha hes hknown hg
  have hin : Grounded m ctx := by
    refine ⟨?_, hg.items⟩
    intro s hs
    rcases mem_roots_iff.1 hs with hs | hs | hs
    · exact hg.roots s (mem_roots_iff.2 (.inl hs))
    · exact hg.roots s (mem_roots_iff.2 (.inr (.inl hs)))
    · exact hknown s (hctx s hs)
  have hout := h es ha hes hknown hin
  refine ⟨?_, hout.items⟩
  intro s hs
  rcases mem_roots_iff.1 hs with hs | hs | hs
  · exact hout.roots s (mem_roots_iff.2 (.inl hs))
  · exact hout.roots s (mem_roots_iff.2 (.inr (.inl hs)))
  · cases hs

theorem leads {α : Type} {out : Outcome α × Machine β} {post : α → Moment β → Prop}
    {expr : List Slot} (h : Leads ⟨m, ctx, m.store.Reaches expr⟩ out post)
    (hknown : ∀ s ∈ expr ++ ctx.slots, s ∈ known) : Grounds known m out.2 := by
  obtain ⟨es', own, hm, -⟩ := h
  have hout : ∀ es, Accounts es m.store → Sparing (es ++ es') → (∀ s ∈ known, m.store.Issued s) →
      Grounded m ctx → Grounded out.2 out.1.2 := by
    intro es ha hes hi hg
    refine (Grounded.moves (b := ⟨out.2, out.1.2, own⟩) hg ha (fun s hs => ?_) hm hes).1
    exact hs.closed (fun r hr => hi r (hknown r (List.mem_append_left _ hr)))
      fun a _ b hb => hg.items a b hb
  exact forget hm.changes hout fun s hs => hknown s (List.mem_append_right _ hs)

theorem settle {r : Except Error (Machine β)} (h : ∀ m', r = .ok m' → Grounds known m m') :
    Grounds known m (m.settle r).2 := by
  cases r with
  | error e => exact .refl m
  | ok m' => exact h m' rfl

end Grounds

theorem sound_reaches (hm : m.store.WF) (expr : List Slot) :
    Moment.Sound ⟨m, ctx, m.store.Reaches expr⟩ :=
  ⟨hm, fun _ hs _ ht => hs.item ht⟩

theorem grounds_parse (hm : m.store.WF) (source : List Char) :
    Grounds [] m (m.parse source).2 := by
  cases h : m.parse source with
  | mk result m' =>
    cases result with
    | error e =>
      have hu := undoes_of_parse hm h
      obtain ⟨es', hrun, -⟩ := hu.run
      exact ⟨es', hrun.changes, fun es ha hes _ hg => hg.undoes ha hu hrun hes⟩
    | ok expr =>
      obtain ⟨ss, hl⟩ := exists_loads_of_parse hm h
      refine ⟨_, hl.stores.run.changes, fun es ha hes _ hg => hg.stores ha hl.stores hes ?_⟩
      refine fun s hs t ht => .inr (.inl (hl.stores.isLive_of_mem hm ?_))
      exact hl.mem_iff.2 ((hl.mem_iff.1 hs).item ht)

/-- Whatever is asked of the machine with slots that were handed out, it stays grounded. -/
theorem grounds_perform {m : Machine Command} (hm : m.store.WF) (r : Request Command) :
    Grounds (mentioned r) m (perform library r m).2 := by
  cases r with
  | allocate v => exact .allocate m v fun t ht => .inl ht
  | release s =>
    refine .settle fun m' h => ?_
    unfold Machine.release at h
    split at h
    · cases h
    · next v hv =>
      cases h
      exact .releases (releases_vacate (value_eq_ok_iff.1 hv))
  | releaseTree s =>
    obtain ⟨rs, hrel, -⟩ := exists_releases_releaseAll m [s]
    exact .releases hrel
  | releaseUnreachable s ctx =>
    obtain ⟨rs, hrel, -⟩ := exists_releases_releaseAllUnreachable m ctx [s]
    exact .releases hrel
  | duplicate s =>
    simp only [perform, answer, duplicate]
    cases hv : m.value s with
    | error e => exact .refl m
    | ok v =>
      have hitems := Store.items_of_get? (value_eq_ok_iff.1 hv)
      cases hc : v.copy with
      | error e => simpa only [hc, Except.map] using .refl m
      | ok w =>
        simp only [hc, Except.map]
        refine .allocate m w fun t ht => .inr ⟨s, ?_⟩
        rw [hitems]
        unfold Value.copy at hc
        split at hc
        · cases hc
        · cases hc
          exact ht
  | overwrite s v =>
    simp only [perform, answer, overwrite, Store.replace]
    cases hs : m.store.get? s with
    | none =>
      refine .outside store_discard fun t ht => .inl ?_
      rwa [Machine.roots, globals_discard, retained_discard] at ht
    | some old =>
      refine .put hs v (fun t ht => .inl (List.mem_cons_of_mem _ ht)) store_discard
        globals_discard retained_discard
  | push list item =>
    refine .settle fun m' h => ?_
    unfold push at h
    split at h
    · cases h
    · next v hv =>
      split at h
      · cases h
      · next items hitems =>
        have hs := value_eq_ok_iff.1 hv
        simp only [amend, Store.modify, hs, Except.map, Except.ok.injEq] at h
        subst h
        refine .put hs _ (fun t ht => ?_) rfl rfl rfl
        cases v <;> cases hitems
        exact (List.mem_append.1 ht).elim .inr fun ht => .inl (by
          rw [List.mem_singleton.1 ht]
          simp [mentioned])
  | retain s =>
    refine .settle fun m' h => ?_
    unfold retain at h
    split at h
    · cases h
      refine .outside rfl fun t ht => ?_
      rcases mem_roots_iff.1 ht with ht | ht | ht
      · exact .inl (mem_roots_iff.2 (.inl ht))
      · rcases List.mem_insert_iff.1 ht with rfl | ht
        · exact .inr List.mem_cons_self
        · exact .inl (mem_roots_iff.2 (.inr (.inl ht)))
      · cases ht
    · cases h
  | unretain s =>
    have hsub : (perform library (.unretain s) m).2.retained ⊆ m.retained :=
      List.filter_subset_self ..
    refine .outside rfl fun t ht => .inl (roots_subset ?_ hsub none ht)
    rfl
  | assignGlobal name s =>
    refine .outside rfl fun t ht => ?_
    exact (rebinds_global.mem_roots t ht).imp id fun h => by rw [h]; exact List.mem_cons_self
  | removeGlobal name =>
    refine .outside rfl fun t ht => .inl ?_
    rcases mem_roots_iff.1 ht with ht | ht
    · refine mem_roots_iff.2 (.inl ?_)
      obtain ⟨entry, hmem, rfl⟩ := List.mem_map.1 ht
      exact List.mem_map_of_mem (List.mem_of_mem_filter hmem)
    · exact mem_roots_iff.2 (.inr ht)
  | parse source => exact grounds_parse hm source.toList
  | evaluate expr ctx =>
    exact .leads (behaves_evaluate ⟨m, ctx, m.store.Reaches expr⟩ expr (sound_reaches hm expr)
      fun s hs => .root hs) fun s hs => hs
  | argument s ctx =>
    exact .leads (leads_argumentBy (a := ⟨m, ctx, m.store.Reaches [s]⟩) behaves_evaluate
      (sound_reaches hm [s]) (.root List.mem_cons_self)) fun t ht => ht
  | eval source ctx =>
    obtain ⟨es', h⟩ := exists_carries_eval hm source ctx
    exact .forget h.changes (fun es ha hes _ => h.grounded es ha hes) fun s hs => hs
  | value s => exact .refl m
  | isRetained s => exact .refl m
  | isReachable s ctx => exact .refl m
  | globals => exact .refl m
  | render s => exact .refl m
  | renderAll expr => exact .refl m
  | depth => exact .refl m
  | print line => exact .outside rfl fun t ht => .inl ht
  | handOver s => exact .outside rfl fun t ht => .inl ht

/-! ## Reachable machines -/

/-- The machines of the command line, with what has happened to their slots: the first one has the
three builtins, and the embedding program asks for anything, with slots that were handed out. -/
inductive Reachable : Machine Command → List Event → Prop
  | start {config : Config} {es : List Event} (h : Run (.fresh config) es (machine config)) :
      Reachable (machine config) es
  | perform {m : Machine Command} {es es' : List Event} (h : Reachable m es)
      (r : Request Command) (hr : ∀ s ∈ mentioned r, .stored s ∈ es)
      (hrun : Run m es' (m.perform library r).2) : Reachable (m.perform library r).2 (es ++ es')

/-- Registering a builtin makes a new root and no new item. -/
theorem grounded_register (h : Grounded m none) (hm : m.store.WF) (name : String) (code : β) :
    Grounded (m.register name (.builtin name code)).2 none := by
  have hget : ∀ s, (m.register name (.builtin name code)).2.store.get? s =
      if s = m.store.nextSlot then some (.builtin name code) else m.store.get? s := fun s =>
    hm.get?_allocate
  have hissued : ∀ s, m.store.Issued s →
      (m.register name (.builtin name code)).2.store.Issued s := by
    rintro s (hl | hlt)
    · refine .inl ?_
      rw [Store.isLive, hget]
      split
      · rfl
      · exact hl
    · refine .inr ?_
      show s.generation < (m.store.allocate _).2.generation s.index
      rwa [Store.generation_allocate hm]
  refine ⟨?_, ?_⟩
  · intro s hs
    rcases rebinds_global.mem_roots s hs with hold | rfl
    · exact hissued s (h.roots s hold)
    · exact Store.issued_of_get? ((hget _).trans (if_pos rfl))
  · intro s t ht
    refine hissued t (h.items s t ?_)
    by_cases hs : s = m.store.nextSlot
    · rw [Store.items_of_get? ((hget s).trans (if_pos hs))] at ht
      cases ht
    · rwa [Store.items_congr ((hget s).trans (if_neg hs))] at ht

namespace Reachable

variable {m : Machine Command}

theorem accounts (h : Reachable m es) : Accounts es m.store := by
  induction h with
  | start hrun => exact Accounts.empty.changes hrun.changes
  | perform _ r _ hrun ih => exact ih.changes hrun.changes

theorem grounded (h : Reachable m es) (hes : Sparing es) : Grounded m none := by
  induction h with
  | @start config es hrun =>
    have hfresh : Grounded (.fresh config : Machine Command) none :=
      ⟨fun s hs => (nomatch hs), fun s t ht => (nomatch ht)⟩
    have hwf : ∀ {m : Machine Command}, m.store.WF → ∀ c : Command,
        (m.register c.name (.builtin c.name c)).2.store.WF := fun h _ => h.allocate
    have h₀ : (.fresh config : Machine Command).store.WF := .empty
    have h₁ := grounded_register hfresh h₀ "print" Command.print
    have h₂ := grounded_register h₁ (hwf h₀ .print) "add" Command.add
    exact grounded_register h₂ (hwf (hwf h₀ .print) .add) "set" Command.set
  | @perform m es es' h r hmem hrun ih =>
    obtain ⟨es'', hc, hg⟩ := grounds_perform h.accounts.wf r
    have hes' := hrun.changes.sparing_of_sparing hc h.accounts.wf hes
    refine hg es h.accounts hes' (fun s hs => ?_) (ih hes.of_append)
    exact h.accounts.issued hes.of_append (hmem s hs)

end Reachable

theorem run_machine (config : Config) :
    Run (.fresh config) [.stored ⟨0, 0⟩, .stored ⟨1, 0⟩, .stored ⟨2, 0⟩] (machine config) := by
  have h₁ := Run.register (.fresh config) "print" (.builtin "print" Command.print)
  have h₂ := h₁.trans (.register _ "add" (.builtin "add" Command.add))
  exact h₂.trans (.register _ "set" (.builtin "set" Command.set))

end SlotScript.Console
