import Mathlib
import SlotScript.Proofs.Machine.Levels
import SlotScript.Proofs.Machine.Requests

/-!
# Machines come to rest

Whatever is asked of a machine, and whatever the builtins do that it calls, it comes back to rest:
the depth and the number of open journals are what they were before, the journal is empty if none is
open, and every slot that is retained is live. This holds of the operations of the embedding program
and of every request that a builtin makes in the midst of one, at any depth, and the depth never
goes beyond the limit (`comes_to_rest`).

Depth and journals are facts about runs. The retained slots are not: the end of a statement releases
slots without looking at them. They are roots of its search for what stays, so it does not come to
them, and every other release strikes the released slot off.
-/

namespace SlotScript.Machine

variable {β : Type} {call : Evaluator β} {m m' : Machine β} {ctx ctx' : Context} {s : Slot}

/-! ## Retained slots are live -/

/-- The store is well formed and every retained slot is live. -/
structure Held (m : Machine β) : Prop where
  wf : m.store.WF
  live : ∀ s ∈ m.retained, m.store.isLive s = true

namespace Held

theorem mono (h : Held m) (hwf : m'.store.WF) (hret : m'.retained ⊆ m.retained)
    (hlive : ∀ s ∈ m'.retained, m.store.isLive s = true → m'.store.isLive s = true) : Held m' :=
  ⟨hwf, fun s hs => hlive s hs (h.live s (hret hs))⟩

theorem outside (h : Held m) (hs : m'.store = m.store) (hr : m'.retained ⊆ m.retained) : Held m' :=
  h.mono (hs.symm ▸ h.wf) hr fun s _ hl => by rwa [hs]

theorem discard (h : Held m) (v : Value β) : Held (m.discard v) :=
  h.outside store_discard fun s hs => by rwa [retained_discard] at hs

theorem allocate (h : Held m) (v : Value β) : Held (m.allocate v).2 := by
  refine h.mono h.wf.allocate (List.Subset.refl _) fun s _ hl => ?_
  obtain ⟨w, hw⟩ := Store.isLive_iff.1 hl
  have hst : Stores m [m.store.nextSlot] (m.allocate v).2 := .snoc (.nil m) v
  exact Store.isLive_iff.2 ⟨w, hst.get?_of_get? h.wf hw⟩

theorem put {w : Value β} (h : Held m) (hs : m.store.get? s = some w) (v : Value β) :
    Held { m with store := m.store.put s v } := by
  refine h.mono (h.wf.put hs) (List.Subset.refl _) fun t _ hl => ?_
  show ((m.store.put s v).get? t).isSome = true
  rw [Store.get?_put hs]
  split
  · rfl
  · exact hl

/-- A released slot is no longer retained. -/
theorem releases {rs : List Slot} (h : Held m) (hrel : Releases m rs m') : Held m' := by
  have hret : ∀ s ∈ m'.retained, s ∈ m.retained ∧ s ∉ rs := by
    intro s hs
    rwa [hrel.retained, List.mem_filter, decide_eq_true_eq] at hs
  refine h.mono (hrel.wf h.wf) (fun s hs => (hret s hs).1) fun s hs hl => ?_
  rwa [Store.isLive, hrel.get?_of_notMem (hret s hs).2]

theorem admits : Admits fun (m m' : Machine β) => Held m → Held m' where
  refl _ h := h
  trans hm hm' h := hm' (hm h)
  store _ v _ h := h.allocate v
  releases hrel h := h.releases hrel

theorem parse (h : Held m) (source : List Char) : Held (m.parse source).2 :=
  admits.parse m source h

theorem openStatement (h : Held m) : Held m.openStatement.2 :=
  ⟨h.wf.openJournal, fun s hs => by rw [Store.isLive, get?_openStatement]; exact h.live s hs⟩

theorem opened (h : Held m) : Held m.opened := by
  unfold Machine.opened
  split
  · exact h.openStatement
  · exact h

/-- The end of a statement releases nothing that a retained slot reaches. -/
theorem closeStatement (h : Held m) (mark : Nat) (result : Option Slot) (ctx : Context) :
    Held (m.closeStatement mark result ctx) := by
  obtain ⟨rs, m', hrel, heq, -⟩ := exists_releases_closeStatement m mark result ctx
  have hret : (m.closeStatement mark result ctx).retained ⊆ m.retained := by
    rw [heq]
    show m'.retained ⊆ m.retained
    rw [hrel.retained]
    exact List.filter_subset_self ..
  refine h.mono ((hrel.changes_closeStatement heq).wf h.wf) hret fun s hs hl => ?_
  have hroot : m.store.Reaches (result.toList ++ m.roots ctx) s :=
    .root (List.mem_append_right _ (mem_roots_iff.2 (.inr (.inl (hret hs)))))
  rwa [Store.isLive, get?_closeStatement, if_neg fun hc => hc.2 hroot]

section Requests

variable (h : Held m)

include h

theorem overwrite (s : Slot) (v : Value β) : Held (m.overwrite s v).2 := by
  unfold Machine.overwrite Store.replace
  cases hs : m.store.get? s with
  | none => exact h.discard v
  | some old => exact (h.put hs v).discard old

theorem amend (s : Slot) (f : Value β → Value β) : Held (m.settle (m.amend s f)).2 := by
  cases hs : m.store.get? s with
  | none =>
    rw [amend_of_get?_eq_none hs]
    exact h
  | some v =>
    rw [amend_of_get? hs]
    exact h.put hs (f v)

theorem push (list item : Slot) : Held (m.settle (m.push list item)).2 := by
  unfold Machine.push
  split
  · exact h
  · split
    · exact h
    · exact h.amend list _

theorem retain (s : Slot) : Held (m.settle (m.retain s)).2 := by
  unfold Machine.retain
  split
  · next hl =>
    refine ⟨h.wf, fun t ht => ?_⟩
    rcases List.mem_insert_iff.1 ht with rfl | ht
    · exact hl
    · exact h.live t ht
  · exact h

end Requests

theorem plain {r : Request β} (hr : ¬ r.Evaluates) (h : Held m) : Held (answer call r m).2 := by
  cases r with
  | allocate v => exact h.allocate v
  | release s => exact admits.release m s h
  | releaseTree s => exact admits.releaseTree m s h
  | releaseUnreachable s ctx => exact admits.releaseUnreachable m ctx s h
  | duplicate s => exact admits.duplicate call m s h
  | overwrite s v => exact h.overwrite s v
  | push list item => exact h.push list item
  | retain s => exact h.retain s
  | unretain s => exact h.outside rfl (List.filter_subset_self ..)
  | assignGlobal name s => exact h.outside rfl (List.Subset.refl _)
  | removeGlobal name => exact h.outside rfl (List.Subset.refl _)
  | parse source => exact h.parse source.toList
  | evaluate expr ctx => exact absurd trivial hr
  | argument s ctx => exact absurd trivial hr
  | eval source ctx => exact absurd trivial hr
  | print line => exact h.outside rfl (List.Subset.refl _)
  | handOver s => exact h.outside rfl (List.Subset.refl _)
  | _ => exact h

/-- Whatever builtins ask for, every retained slot stays live. -/
theorem tracks : Tracks fun (m : Machine β) _ m' => Held m → Held m' where
  refl _ h := h
  trans hm hm' h := hm' (hm h)
  parse _ source h := h.parse source
  statement result ctx hm h := (hm (h.openStatement)).closeStatement _ result ctx
  deeper hm h := ⟨(hm ⟨h.wf, h.live⟩).wf, (hm ⟨h.wf, h.live⟩).live⟩
  plain hr h := h.plain hr
  evaluates _ hm h := hm h

theorem evaluate (lib : Library β) (h : Held m) (expr : List Slot) (ctx : Context) :
    Held (Machine.evaluate lib expr ctx m).2 :=
  tracks.evaluateAt lib _ expr ctx m h

theorem runStatement (lib : Library β) (h : Held m) (keep : Bool) (statement : List Char)
    (ctx : Context) : Held (Machine.runStatement (Machine.evaluate lib) keep statement ctx m).2 :=
  -- It does not matter which requests are made, so the log may be empty.
  @Tracks.runStatement _ _ _ (fun _ _ _ => []) tracks
    (fun expr ctx _ h => h.evaluate lib expr ctx) keep statement ctx m h

theorem perform (lib : Library β) (h : Held m) (r : Request β) : Held (m.perform lib r).2 :=
  tracks.perform lib r m h

end Held

/-! ## The journal -/

/-- While no journal is open nothing is written. -/
theorem Run.journal_of_journals_eq_zero {es : List Event} (h : Run m es m')
    (hj : m.store.journals = 0) : m'.store.journal = m.store.journal := by
  induction h with
  | refl m => rfl
  | trans h _ ih ih' => exact (ih' (h.journals.trans hj)).trans (ih hj)
  | outside m globals retained notices => rfl
  | store m v =>
    refine Array.toList_inj.1 (Store.toList_journal_allocate.trans ?_)
    rw [if_neg (by omega), List.append_nil]
  | put hs v => rfl
  | release hr => exact hr.journal.1
  | undo _ hr _ ih => exact hr.journal.1.trans (ih hj)
  | deeper _ ih => exact ih hj
  | @statement m m' m'' es rs survivors result ctx h hr heq ih =>
    obtain ⟨w, hw, -⟩ := h.journal
    have hw : m'.store.journal.toList = m.store.journal.toList ++ w := hw
    have hcut : (m'.closeJournal m.store.journal.size).2.store.journal.toList =
        m'.store.journal.toList.take m.store.journal.size := Store.toList_journal_closeJournal _
    have hopen : m'.store.journals = m.store.journals + 1 := h.journals
    have hclosed : m''.store.journals = 0 := by
      rw [hr.journal.2]
      show m'.store.journals - 1 = 0
      omega
    refine Array.toList_inj.1 ?_
    rw [heq, Store.toList_journal_note, hclosed, if_neg (by omega), hr.journal.1, hcut, hw,
      ← Array.length_toList, List.take_left]
    exact List.append_nil _

/-! ## Sound machines -/

/-- What holds of a machine whenever something is asked of it. -/
structure Sound (m : Machine β) : Prop extends Held m where
  journal : m.store.journals = 0 → m.store.journal = #[]
  depth : m.depth ≤ m.config.maxDepth

namespace Sound

theorem fresh (config : Config) : Sound (.fresh config : Machine β) :=
  ⟨⟨.empty, fun _ hs => absurd hs List.not_mem_nil⟩, fun _ => rfl, Nat.zero_le _⟩

theorem run {es : List Event} (h : Sound m) (hrun : Run m es m') (hheld : Held m') : Sound m' := by
  refine ⟨hheld, fun hj => ?_, ?_⟩
  · rw [hrun.journals] at hj
    rw [hrun.journal_of_journals_eq_zero hj]
    exact h.journal hj
  · rw [hrun.depth, hrun.config]
    exact h.depth

theorem runStatement (lib : Library β) (h : Sound m) (keep : Bool) (statement : List Char)
    (ctx : Context) : Sound (Machine.runStatement (evaluate lib) keep statement ctx m).2 := by
  obtain ⟨es, hrun⟩ :=
    exists_run_runStatement (runs_evaluate lib) h.wf keep statement ctx
  exact h.run hrun (h.toHeld.runStatement lib keep statement ctx)

theorem opened (h : Sound m) : Sound m.opened := by
  refine ⟨h.toHeld.opened, ?_, ?_⟩
  · unfold Machine.opened
    split
    · exact fun hj => absurd hj (Nat.succ_ne_zero _)
    · exact h.journal
  · unfold Machine.opened
    split <;> exact h.depth

theorem parse (h : Sound m) (source : List Char) : Sound (m.parse source).2 := by
  obtain ⟨es, hrun⟩ := exists_run_parse h.wf source
  exact h.run hrun (h.toHeld.parse source)

theorem perform (lib : Library β) (h : Sound m) (r : Request β) :
    Sound (Machine.perform lib r m).2 := by
  obtain ⟨es, hrun⟩ := exists_run_answer (runs_evaluate lib) h.wf r
  exact h.run hrun (h.toHeld.perform lib r)

end Sound

/-! ## Inside an operation -/

theorem Passes.sound {lib : Library β} {before : List (List Char)}
    (hp : Passes (evaluate lib) before ctx m ctx' m') (h : Sound m) : Sound m' := by
  induction hp with
  | nil => exact h
  | @cons statement rest ctx ctx' ctx'' m m' m'' result hrun _ ih =>
    have hsound := h.runStatement lib false statement ctx
    rw [hrun] at hsound
    exact ih hsound

/-- An evaluation begins at the depth of the request that it answers. -/
theorem Begins.sound {lib : Library β} {r : Request β} {e : Evaluation β}
    (hb : Begins (Machine.evaluate lib) m r e) (h : Sound m) :
    Sound e.machine ∧ e.machine.depth = m.depth ∧ e.machine.config = m.config := by
  cases hb with
  | evaluate expr ctx => exact ⟨h, rfl, rfl⟩
  | argument ctx hv => exact ⟨h, rfl, rfl⟩
  | @eval source ctx ctx' before after statement m' m'' expr hs hbefore hparse =>
    have hsound := hbefore.sound h
    have hread := hsound.opened.parse statement
    obtain ⟨es, hpassed⟩ := hbefore.exists_run (runs_evaluate lib) h.wf
    obtain ⟨es', hrun⟩ := exists_run_parse hsound.opened.wf statement
    rw [hparse] at hread hrun
    exact ⟨hread, (hrun.depth.trans depth_opened).trans hpassed.depth,
      (hrun.config.trans config_opened).trans hpassed.config⟩

theorem Asks.sound {lib : Library β} {α : Type} {act : Action β α} {r : Request β}
    (ha : Asks (evaluate lib) act m r m') (h : Sound m) :
    Sound m' ∧ m'.depth = m.depth ∧ m'.config = m.config := by
  induction ha with
  | now r next m => exact ⟨h, rfl, rfl⟩
  | @later r r' next m m' _ ih =>
    obtain ⟨hend, hdepth, hconfig⟩ := ih (h.perform lib r)
    obtain ⟨es, hrun⟩ := exists_run_answer (runs_evaluate lib) h.wf r
    exact ⟨hend, hdepth.trans hrun.depth, hconfig.trans hrun.config⟩

/-- A builtin's requests are made one level deeper than the evaluation that calls it. -/
theorem Enters.sound {lib : Library β} {e : Evaluation β} {r : Request β}
    (he : Enters lib e r m') (h : Sound e.machine) :
    Sound m' ∧ m'.depth = e.machine.depth + 1 ∧ m'.config = e.machine.config := by
  cases he with
  | @call head s args ctx m _ name code _ hroom hop hv ha =>
    have hdeep : Sound m.deeper := ⟨⟨h.wf, h.live⟩, h.journal, hroom⟩
    exact ha.sound hdeep

theorem Makes.sound {lib : Library β} {a b : Request β × Machine β} (hm : Makes lib a b)
    (h : Sound a.2) : Sound b.2 ∧ b.2.config = a.2.config := by
  obtain ⟨e, hb, he⟩ := hm
  obtain ⟨hmid, -, hconfig⟩ := hb.sound h
  obtain ⟨hend, -, hconfig'⟩ := he.sound hmid
  exact ⟨hend, hconfig'.trans hconfig⟩

theorem sound_of_reflTransGen {lib : Library β} {a b : Request β × Machine β}
    (hm : Relation.ReflTransGen (Makes lib) a b) (h : Sound a.2) :
    Sound b.2 ∧ b.2.config = a.2.config := by
  induction hm with
  | refl => exact ⟨h, rfl⟩
  | tail _ hlast ih =>
    obtain ⟨hend, hconfig⟩ := hlast.sound ih.1
    exact ⟨hend, hconfig.trans ih.2⟩

/-! ## Runs of operations -/

/-- What an embedding program can do with a machine: ask for what a builtin can ask for, register a
value under a name, or change a value in place. -/
inductive Operation (β : Type) where
  | request (r : Request β)
  | register (name : String) (v : Value β)
  | amend (s : Slot) (f : Value β → Value β)

def operate (lib : Library β) (m : Machine β) : Operation β → Machine β
  | .request r => (m.perform lib r).2
  | .register name v => (m.register name v).2
  | .amend s f => (m.settle (m.amend s f)).2

/-- The machine after operations on a new one. -/
def operateAll (lib : Library β) (config : Config) (ops : List (Operation β)) : Machine β :=
  ops.foldl (operate lib) (.fresh config)

theorem Sound.operate (lib : Library β) (h : Sound m) (op : Operation β) :
    Sound (m.operate lib op) ∧ ∃ es, Run m es (m.operate lib op) := by
  cases op with
  | request r =>
    exact ⟨h.perform lib r, exists_run_answer (runs_evaluate lib) h.wf r⟩
  | register name v =>
    have hheld : Held (m.register name v).2 :=
      (h.toHeld.allocate v).outside rfl (List.Subset.refl _)
    exact ⟨h.run (.register m name v) hheld, _, .register m name v⟩
  | amend s f =>
    obtain ⟨es, hrun, -⟩ := FreesOnly.amend (p := fun _ => False) (m := m) s f
    exact ⟨h.run hrun (h.toHeld.amend s f), es, hrun⟩

theorem sound_operateAll (lib : Library β) (config : Config) (ops : List (Operation β)) :
    Sound (operateAll lib config ops) ∧
      ∃ es, Run (.fresh config) es (operateAll lib config ops) := by
  induction ops using List.reverseRecOn with
  | nil => exact ⟨.fresh config, [], .refl _⟩
  | append_singleton ops op ih =>
    obtain ⟨h, es, hrun⟩ := ih
    obtain ⟨h', es', hrun'⟩ := h.operate lib op
    have heq : operateAll lib config (ops ++ [op]) =
        (operateAll lib config ops).operate lib op := by
      simp [operateAll]
    rw [heq]
    exact ⟨h', _, hrun.trans hrun'⟩

/-- After any operations a machine is at rest. While one more is performed, everything that is asked
of the machine leaves depth and journals as they were, the retained slots are live, and the depth
stays within the limit: an expression is not evaluated where the limit is reached. -/
theorem comes_to_rest (lib : Library β) (config : Config) (ops : List (Operation β)) :
    let m := operateAll lib config ops
    (m.depth = 0 ∧ m.store.journals = 0 ∧ m.store.journal = #[] ∧
      ∀ s ∈ m.retained, m.store.isLive s = true) ∧
    ∀ r r' n, Relation.ReflTransGen (Makes lib) (r, m) (r', n) →
      let n' := (n.perform lib r').2
      (n.depth ≤ config.maxDepth ∧ n'.depth = n.depth ∧ n'.store.journals = n.store.journals) ∧
      (n'.store.journals = 0 → n'.store.journal = #[]) ∧
      (∀ s ∈ n'.retained, n'.store.isLive s = true) ∧
      ∀ e, Begins (evaluate lib) n r' e → e.machine.depth = n.depth ∧
        ∀ head args, e.expr = head :: args → n.depth = config.maxDepth →
          evaluate lib e.expr e.ctx e.machine =
            ((.error (.tooDeep config.maxDepth), e.ctx), e.machine) := by
  intro m
  obtain ⟨hm, es, hrun⟩ := sound_operateAll lib config ops
  have hjournals : m.store.journals = 0 := hrun.journals
  refine ⟨⟨hrun.depth, hjournals, hm.journal hjournals, hm.live⟩, ?_⟩
  intro r r' n hinside n'
  obtain ⟨hn, hconfig⟩ := sound_of_reflTransGen hinside hm
  have hconfig : n.config = config := hconfig.trans hrun.config
  have hn' : Sound n' := hn.perform lib r'
  obtain ⟨es', hrun'⟩ := exists_run_answer (runs_evaluate lib) hn.wf r'
  refine ⟨⟨hconfig ▸ hn.depth, hrun'.depth, hrun'.journals⟩, hn'.journal, hn'.live, ?_⟩
  intro e he
  obtain ⟨-, hdepth, hconfig'⟩ := he.sound hn
  refine ⟨hdepth, ?_⟩
  rintro head args hexpr hlimit
  have hreached : e.machine.config.maxDepth ≤ e.machine.depth := by
    rw [hconfig', hconfig, hdepth]
    exact Nat.le_of_eq hlimit.symm
  rw [hexpr, evaluate_cons_of_le lib hreached, hconfig', hconfig]

/-- A builtin that evaluates a call of itself. With one level to go, its request is made at the
limit and refused, and the machine comes back from there. -/
theorem comes_to_rest_runaway :
    let lib : Library Unit := fun _ _ => Routine.eval "f"
    let m := operateAll lib { maxDepth := 1 } [.register "f" (.builtin "f" ())]
    let n := (m.opened.parse "f".toList).2.deeper
    Relation.ReflTransGen (Makes lib) (.eval "f" none, m) (.eval "f" none, n) ∧
      n.depth = 1 ∧ n.store.journals = 1 ∧
      (n.perform lib (.eval "f" none)).1.1 = .error (.tooDeep 1) ∧
      (n.perform lib (.eval "f" none)).2.depth = 1 ∧
      (n.perform lib (.eval "f" none)).2.store.journals = 1 := by
  intro lib m n
  have hone : Syntax.statements ';' "f".toList = .ok ([] ++ "f".toList :: []) := by cbv
  have hparse : m.opened.parse "f".toList = (.ok [⟨1, 0⟩], (m.opened.parse "f".toList).2) :=
    Prod.ext (by cbv) rfl
  have hinside : Relation.ReflTransGen (Makes lib) (.eval "f" none, m) (.eval "f" none, n) :=
    .single ⟨⟨[⟨1, 0⟩], none, (m.opened.parse "f".toList).2⟩,
      .eval hone (.nil none m) hparse,
      .call (s := ⟨0, 0⟩) (by cbv) (by cbv) (by cbv) (.now _ _ _)⟩
  obtain ⟨⟨hdepth, hdepth', hjournals⟩, -⟩ :=
    (comes_to_rest lib { maxDepth := 1 } [.register "f" (.builtin "f" ())]).2 _ _ n hinside
  have hn : n.depth = 1 ∧ n.store.journals = 1 := by cbv
  exact ⟨hinside, hn.1, hn.2, by cbv, hdepth'.trans hn.1, hjournals.trans hn.2⟩

end SlotScript.Machine
