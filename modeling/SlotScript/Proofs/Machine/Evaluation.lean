import SlotScript.Proofs.Machine.Loading

/-!
# Evaluations are runs

Every request is a run of the machine that answers it, provided that the evaluator it uses only
makes runs (`Runs`). By induction on actions so is every routine, and by induction on the levels
that are left so is every evaluation, with every library: `runs_evaluateAt`.

Of a request that evaluates nothing it is also said which slots it releases: `Request.frees` tells
what the request asks for, and `freesOnly_plain` that it does no more.
-/

namespace SlotScript

variable {β : Type}

/-- The request is answered by an evaluation, in which further requests can be made. -/
def Request.Evaluates : Request β → Prop
  | .evaluate _ _ | .argument _ _ | .eval _ _ => True
  | _ => False

/-- Whether a request that is made on a machine is one to release a slot: the slot itself, the tree
below another one, or what is in this tree and not in use. -/
def Request.frees (m : Machine β) (s : Slot) : Request β → Bool
  | .release t => s = t
  | .releaseTree t => m.store.Reaches [t] s
  | .releaseUnreachable t ctx => m.store.Reaches [t] s ∧ ¬ m.store.Reaches (m.roots ctx) s
  | _ => false

namespace Machine

variable {call : Evaluator β} {m : Machine β}

/-! ## Requests that evaluate nothing -/

namespace FreesOnly

variable {p : Slot → Prop} {m' : Machine β}

theorem outside (hs : m'.store = m.store) (hc : m'.config = m.config) (hd : m'.depth = m.depth) :
    FreesOnly p m m' := by
  have h := Run.outside m m'.globals m'.retained m'.notices
  rw [← hs, ← hc, ← hd] at h
  exact ⟨[], h, fun _ hs => (nomatch hs)⟩

theorem discard (h : FreesOnly p m m') (v : Value β) : FreesOnly p m (m'.discard v) :=
  h.trans (.outside store_discard config_discard depth_discard)

theorem settle {r : Except Error (Machine β)} (h : ∀ m', r = .ok m' → FreesOnly p m m') :
    FreesOnly p m (m.settle r).2 := by
  cases r with
  | error e => exact .refl p m
  | ok m' => exact h m' rfl

theorem allocate (m : Machine β) (v : Value β) : FreesOnly p m (m.allocate v).2 :=
  ⟨_, .store m v, fun _ hs => by simp at hs⟩

theorem put {s : Slot} {w : Value β} (hs : m.store.get? s = some w) (v : Value β) :
    FreesOnly p m { m with store := m.store.put s v } :=
  ⟨_, .put hs v, fun _ hs => (nomatch hs)⟩

theorem overwrite (s : Slot) (v : Value β) : FreesOnly p m (m.overwrite s v).2 := by
  unfold Machine.overwrite Store.replace
  cases hs : m.store.get? s with
  | none => exact (FreesOnly.refl p m).discard v
  | some old => exact (FreesOnly.put hs v).discard old

theorem amend (s : Slot) (f : Value β → Value β) : FreesOnly p m (m.settle (m.amend s f)).2 := by
  refine .settle fun m' heq => ?_
  unfold Machine.amend Store.modify at heq
  cases hs : m.store.get? s with
  | none =>
    rw [hs] at heq
    cases heq
  | some v =>
    rw [hs] at heq
    cases heq
    exact .put hs (f v)

theorem push (list item : Slot) : FreesOnly p m (m.settle (m.push list item)).2 := by
  unfold Machine.push
  split
  · exact .refl p m
  · split
    · exact .refl p m
    · exact .amend list _

theorem retain (s : Slot) : FreesOnly p m (m.settle (m.retain s)).2 := by
  refine .settle fun m' h => ?_
  unfold Machine.retain at h
  split at h
  · cases h
    exact .outside rfl rfl rfl
  · cases h

theorem duplicate (s : Slot) : FreesOnly p m (answer call (.duplicate s) m).2 := by
  simp only [answer, Machine.duplicate]
  cases m.value s with
  | error e => exact .refl p m
  | ok v =>
    cases hc : v.copy with
    | error e =>
      simp only [hc, Except.map]
      exact .refl p m
    | ok w =>
      simp only [hc, Except.map]
      exact .allocate m w

end FreesOnly

theorem freesOnly_release (s : Slot) : FreesOnly (· = s) m (m.settle (m.release s)).2 := by
  refine .settle fun m' h => ?_
  unfold release at h
  split at h
  · cases h
  · next v hv =>
    cases h
    exact .release (releases_vacate (value_eq_ok_iff.1 hv)) fun t ht => List.mem_singleton.1 ht

theorem freesOnly_releaseTree (s : Slot) :
    FreesOnly (fun t => m.store.Reaches [s] t) m (m.releaseTree s) := by
  obtain ⟨rs, hrel, hrs⟩ := exists_releases_releaseAll m [s]
  exact .release hrel fun t ht => ((hrs t).1 ht).2

theorem freesOnly_releaseUnreachable (ctx : Context) (s : Slot) :
    FreesOnly (fun t => m.store.Reaches [s] t ∧ ¬ m.store.Reaches (m.roots ctx) t) m
      (m.releaseUnreachable ctx s) := by
  obtain ⟨rs, hrel, hrs⟩ := exists_releases_releaseAllUnreachable m ctx [s]
  exact .release hrel fun t ht => ((hrs t).1 ht).2

/-- A request that evaluates nothing releases the slots that it asks to release and no others. -/
theorem freesOnly_plain (hm : m.store.WF) {r : Request β} (hr : ¬ r.Evaluates) :
    FreesOnly (fun s => r.frees m s = true) m (answer call r m).2 := by
  cases r with
  | allocate v => exact .allocate m v
  | release s => exact (freesOnly_release s).mono fun t ht => decide_eq_true ht
  | releaseTree s => exact (freesOnly_releaseTree s).mono fun t ht => decide_eq_true ht
  | releaseUnreachable s ctx =>
    exact (freesOnly_releaseUnreachable ctx s).mono fun t ht => decide_eq_true ht
  | duplicate s => exact .duplicate s
  | overwrite s v => exact .overwrite s v
  | push list item => exact .push list item
  | retain s => exact .retain s
  | unretain s => exact .outside rfl rfl rfl
  | assignGlobal name s => exact .outside rfl rfl rfl
  | removeGlobal name => exact .outside rfl rfl rfl
  | parse source => exact (freesOnly_parse hm source.toList).mono fun _ => False.elim
  | evaluate expr ctx => exact absurd trivial hr
  | argument s ctx => exact absurd trivial hr
  | eval source ctx => exact absurd trivial hr
  | print line => exact .outside rfl rfl rfl
  | handOver s => exact .outside rfl rfl rfl
  | _ => exact .refl _ m

/-! ## Statements -/

/-- An evaluator whose evaluations are runs. -/
def Runs (call : Evaluator β) : Prop :=
  ∀ expr ctx m, m.store.WF → ∃ es, Run m es (call expr ctx m).2

theorem exists_run_argumentBy (hc : Runs call) (hm : m.store.WF) (s : Slot) (ctx : Context) :
    ∃ es, Run m es (argumentBy call s ctx m).2 := by
  unfold argumentBy
  split
  · exact ⟨_, .refl m⟩
  · exact ⟨_, .refl m⟩
  · next items _ =>
    have h := hc items ctx m hm
    split <;> next heq => rwa [heq] at h
  · exact ⟨_, .refl m⟩

theorem exists_run_evaluateOne (hc : Runs call) (hm : m.store.WF) (statement : List Char)
    (ctx : Context) : ∃ es, Run m es (evaluateOne call statement ctx m).2 := by
  obtain ⟨es, hes⟩ := exists_run_parse hm statement
  unfold evaluateOne
  split
  · next e m' heq =>
    rw [heq] at hes
    exact ⟨es, hes⟩
  · next expr m' heq =>
    rw [heq] at hes
    obtain ⟨es', hes'⟩ := hc expr ctx m' (hes.wf hm)
    exact ⟨_, hes.trans hes'⟩

theorem exists_run_closeStatement {m' : Machine β} {es : List Event}
    (h : Run m.openStatement.2 es m') (result : Option Slot) (ctx : Context) :
    ∃ rs : List Slot,
      Run m (es ++ rs.map .reclaimed) (m'.closeStatement m.store.journal.size result ctx) := by
  obtain ⟨rs, m'', hrel, heq, -⟩ :=
    exists_releases_closeStatement m' m.store.journal.size result ctx
  exact ⟨rs, .statement h hrel heq⟩

theorem exists_run_runStatement (hc : Runs call) (hm : m.store.WF) (keep : Bool)
    (statement : List Char) (ctx : Context) :
    ∃ es, Run m es (runStatement call keep statement ctx m).2 := by
  unfold runStatement
  split
  · obtain ⟨es, hes⟩ :=
      exists_run_evaluateOne hc (m := m.openStatement.2) hm.openJournal statement ctx
    obtain ⟨rs, hrs⟩ := exists_run_closeStatement hes
      (keptSlot keep (evaluateOne call statement ctx m.openStatement.2).1.1)
      (evaluateOne call statement ctx m.openStatement.2).1.2
    exact ⟨_, hrs⟩
  · exact exists_run_evaluateOne hc hm statement ctx

theorem exists_run_runStatements (hc : Runs call) (statements : List (List Char)) (ctx : Context)
    (m : Machine β) (hm : m.store.WF) :
    ∃ es, Run m es (runStatements call statements ctx m).2 := by
  fun_induction runStatements call statements ctx m with
  | case1 ctx m => exact ⟨_, .refl m⟩
  | case2 statement ctx m => exact exists_run_runStatement hc hm true statement ctx
  | case3 statement rest ctx m _ e ctx' m' heq =>
    have h := exists_run_runStatement hc hm false statement ctx
    rwa [heq] at h
  | case4 statement rest ctx m _ r ctx' m' heq ih =>
    obtain ⟨es, hes⟩ := exists_run_runStatement hc hm false statement ctx
    rw [heq] at hes
    obtain ⟨es', hes'⟩ := ih (hes.wf hm)
    exact ⟨_, hes.trans hes'⟩

theorem exists_run_evalTextBy (hc : Runs call) (hm : m.store.WF) (source : String) (ctx : Context) :
    ∃ es, Run m es (evalTextBy call source ctx m).2 := by
  unfold evalTextBy
  split
  · exact ⟨_, .refl m⟩
  · exact exists_run_runStatements hc _ ctx m hm

/-! ## Actions and evaluations -/

theorem exists_run_answer (hc : Runs call) (hm : m.store.WF) (r : Request β) :
    ∃ es, Run m es (answer call r m).2 := by
  cases r with
  | evaluate expr ctx => exact hc expr ctx m hm
  | argument s ctx => exact exists_run_argumentBy hc hm s ctx
  | eval source ctx => exact exists_run_evalTextBy hc hm source ctx
  | _ => exact (freesOnly_plain hm id).exists_run

theorem exists_run_runAction {α : Type} (hc : Runs call) (act : Action β α) (m : Machine β)
    (hm : m.store.WF) : ∃ es, Run m es (runAction call act m).2 := by
  induction act generalizing m with
  | done a => exact ⟨_, .refl m⟩
  | ask r next ih =>
    obtain ⟨es, hes⟩ := exists_run_answer hc hm r
    obtain ⟨es', hes'⟩ := ih (answer call r m).1 (answer call r m).2 (hes.wf hm)
    exact ⟨_, hes.trans hes'⟩

theorem exists_run_apply (lib : Library β) (hc : Runs call) (hm : m.store.WF) (head : Slot)
    (args : List Slot) (ctx : Context) : ∃ es, Run m es (apply lib call head args ctx m).2 := by
  unfold apply
  split
  · exact ⟨_, .refl m⟩
  · split
    · exact ⟨_, .refl m⟩
    · exact exists_run_runAction hc _ m hm
    · exact ⟨_, .refl m⟩

/-- Whatever the builtins of a library do, an evaluation is a run. -/
theorem runs_evaluateAt (lib : Library β) (room : Nat) : Runs (evaluateAt lib room) := by
  induction room with
  | zero =>
    intro expr ctx m _
    cases expr with
    | nil => exact ⟨_, .refl m⟩
    | cons head args => exact ⟨_, .refl m⟩
  | succ room ih =>
    intro expr ctx m hm
    cases expr with
    | nil => exact ⟨_, .refl m⟩
    | cons head args =>
      obtain ⟨es, hes⟩ :=
        exists_run_apply lib ih (m := { m with depth := m.depth + 1 }) hm head args ctx
      exact ⟨_, .deeper hes⟩

theorem runs_evaluate (lib : Library β) : Runs (evaluate lib) :=
  fun expr ctx m hm => runs_evaluateAt lib _ expr ctx m hm

theorem exists_run_eval (lib : Library β) (hm : m.store.WF) (source : String) (ctx : Context) :
    ∃ es, Run m es (m.eval lib source ctx).2 :=
  exists_run_evalTextBy (runs_evaluate lib) hm source ctx

end Machine

end SlotScript
