import SlotScript.Proofs.Machine.Evaluation
import SlotScript.Proofs.Machine.Statements

/-!
# The requests of an evaluation

While an evaluation runs, the builtins that it calls make requests. `recorded` lists them, at every
depth and in the order in which they are made, each one with the machine that it is made on; `asked`
leaves the machines out.

Much of what is to be shown of evaluations relates three things: the machine before, the requests
that were made, and the machine after. `Tracks` says what such a relation has to be closed under:
the requests that evaluate nothing, reading a text, and the two brackets that an evaluation is made
of, a statement and a level. It then holds of every request with every library (`Tracks.perform`),
so the recursion of the evaluator is gone through here only. `Admits` does the same for what only
stores and releases, reading a text above all.

The first use is to say what the slots that a run releases are due to: each one was released by a
request in the log (`freesOnly_evaluateAt`).
-/

namespace SlotScript

variable {β : Type}

namespace Machine

/-! ## The log -/

/-- Requests in the order in which they are made, each one with the machine that it is made on. -/
abbrev Record (β : Type) := List (Request β × Machine β)

/-- Tells which requests builtins make while an expression is evaluated. -/
abbrev Log (β : Type) := List Slot → Context → Machine β → Record β

section Asked

variable (call : Evaluator β) (log : Log β)

def askedByArgument (s : Slot) (ctx : Context) (m : Machine β) : Record β :=
  match m.value s with
  | .ok (.list items) => log items ctx m
  | _ => []

def askedByOne (statement : List Char) (ctx : Context) (m : Machine β) : Record β :=
  match m.parse statement with
  | (.error _, _) => []
  | (.ok expr, m) => log expr ctx m

def askedByStatements : List (List Char) → Context → Machine β → Record β
  | [], _, _ => []
  | statement :: rest, ctx, m =>
    askedByOne log statement ctx m.opened ++
      match runStatement call false statement ctx m with
      | ((.error _, _), _) => []
      | ((.ok _, ctx), m) => askedByStatements rest ctx m

/-- The requests that are made while a request is answered. -/
def askedWithin : Request β → Machine β → Record β
  | .evaluate expr ctx, m => log expr ctx m
  | .argument s ctx, m => askedByArgument log s ctx m
  | .eval source ctx, m =>
    match Syntax.statements ';' source.toList with
    | .error _ => []
    | .ok statements => askedByStatements call log statements ctx m
  | _, _ => []

/-- The requests of an action, each one followed by those that are made while it is answered. -/
def askedByAction {α : Type} : Action β α → Machine β → Record β
  | .done _, _ => []
  | .ask r next, m =>
    (r, m) :: (askedWithin call log r m ++
      askedByAction (next (answer call r m).1) (answer call r m).2)

def askedByCall (lib : Library β) (head : Slot) (args : List Slot) (ctx : Context)
    (m : Machine β) : Record β :=
  match m.operator ctx head with
  | .error _ => []
  | .ok s =>
    match m.value s with
    | .ok (.builtin _ code) => askedByAction call log ((lib code args).run.run ctx) m
    | _ => []

end Asked

def askedAt (lib : Library β) : Nat → Log β
  | room + 1, head :: args, ctx, m =>
    askedByCall (evaluateAt lib room) (askedAt lib room) lib head args ctx
      { m with depth := m.depth + 1 }
  | _, _, _, _ => []

/-- The requests that builtins make while a request is answered, also those that are made while one
of them is answered, with the machines that they are made on. -/
def recorded (lib : Library β) (r : Request β) (m : Machine β) : Record β :=
  askedWithin (evaluate lib) (fun expr ctx m =>
    askedAt lib (m.config.maxDepth - m.depth) expr ctx m)
    r m

/-- The requests that builtins make while a request is answered, also those that are made while one
of them is answered. -/
def asked (lib : Library β) (r : Request β) (m : Machine β) : List (Request β) :=
  (recorded lib r m).map Prod.fst

end Machine

/-- No copy of a value has a destructor. -/
theorem Value.doomed?_of_copy {v w : Value β} (h : v.copy = .ok w) : w.doomed? = none := by
  cases v with
  | host host =>
    cases host <;> cases h
    rfl
  | _ =>
    cases h
    rfl

namespace Machine

/-! ## Storing and releasing -/

/-- A relation of machines that is kept by storing data and by releasing slots. -/
structure Admits (R : Machine β → Machine β → Prop) : Prop where
  refl : ∀ m, R m m
  trans : ∀ {m m' m''}, R m m' → R m' m'' → R m m''
  store : ∀ m v, v.doomed? = none → R m (m.allocate v).2
  releases : ∀ {m m' rs}, Releases m rs m' → R m m'

namespace Admits

variable {R : Machine β → Machine β → Prop}

mutual

theorem load (h : Admits R) : ∀ (t : Syntax.Term) (m : Machine β) (room : Nat),
    R m (m.load room t).2
  | .number _, m, room | .text _, m, room | .symbol _, m, room => by
    rw [Machine.load]
    exact h.store m _ rfl
  | .list items, m, 0 => by
    rw [Machine.load]
    exact h.refl m
  | .list items, m, room + 1 => by
    have hitems := loadAll h items m room []
    rw [Machine.load]
    split
    · next heq => rwa [heq] at hitems
    · next heq =>
      rw [heq] at hitems
      exact h.trans hitems (h.store _ _ rfl)

theorem loadAll (h : Admits R) : ∀ (terms : List Syntax.Term) (m : Machine β) (room : Nat)
    (before : List Slot), R m (m.loadAll room before terms).2
  | [], m, room, before => by
    rw [Machine.loadAll]
    exact h.refl m
  | t :: terms, m, room, before => by
    have ht := load h t m room
    rw [Machine.loadAll]
    split
    · next m' heq =>
      rw [heq] at ht
      -- What was read before is taken back.
      obtain ⟨rs, hrel, -⟩ := exists_releases_releaseAll m' before.reverse
      rw [foldl_releaseTree]
      exact h.trans ht (h.releases hrel)
    · next heq =>
      rw [heq] at ht
      exact h.trans ht (loadAll h terms _ room _)

end

theorem parse (h : Admits R) (m : Machine β) (source : List Char) : R m (m.parse source).2 := by
  unfold Machine.parse
  split
  · exact h.refl m
  · split
    · exact h.refl m
    · exact h.loadAll ..

theorem release (h : Admits R) (m : Machine β) (s : Slot) : R m (m.settle (m.release s)).2 := by
  unfold Machine.release
  cases hv : m.value s with
  | error e => exact h.refl m
  | ok v => exact h.releases (releases_vacate (value_eq_ok_iff.1 hv))

theorem releaseTree (h : Admits R) (m : Machine β) (s : Slot) : R m (m.releaseTree s) := by
  obtain ⟨rs, hrel, -⟩ := exists_releases_releaseAll m [s]
  exact h.releases hrel

theorem releaseUnreachable (h : Admits R) (m : Machine β) (ctx : Context) (s : Slot) :
    R m (m.releaseUnreachable ctx s) := by
  obtain ⟨rs, hrel, -⟩ := exists_releases_releaseAllUnreachable m ctx [s]
  exact h.releases hrel

theorem duplicate (h : Admits R) (call : Evaluator β) (m : Machine β) (s : Slot) :
    R m (answer call (.duplicate s) m).2 := by
  simp only [answer, Machine.duplicate]
  cases m.value s with
  | error e => exact h.refl m
  | ok v =>
    cases hc : v.copy with
    | error e =>
      simp only [hc, Except.map]
      exact h.refl m
    | ok w =>
      simp only [hc, Except.map]
      exact h.store m w (Value.doomed?_of_copy hc)

end Admits

/-! ## Changing in place -/

variable {m : Machine β} {s : Slot}

theorem amend_of_get? {v : Value β} (h : m.store.get? s = some v)
    (f : Value β → Value β) :
    (m.settle (m.amend s f)).2 = { m with store := m.store.put s (f v) } := by
  simp only [amend, Store.modify, h, Except.map, settle]

theorem amend_of_get?_eq_none (h : m.store.get? s = none) (f : Value β → Value β) :
    (m.settle (m.amend s f)).2 = m := by
  simp only [amend, Store.modify, h, Except.map, settle]

/-! ## What is tracked -/

/-- `R m rs m'` can be followed through every evaluation that leads from `m` to `m'` and in which
the requests `rs` are made. -/
structure Tracks (R : Machine β → Record β → Machine β → Prop) : Prop where
  refl : ∀ m, R m [] m
  trans : ∀ {m m' m'' rs rs'}, R m rs m' → R m' rs' m'' → R m (rs ++ rs') m''
  parse : ∀ m source, R m [] (m.parse source).2
  /-- A statement ends with what its own journal calls for. -/
  statement : ∀ {m rs m'} (result : Option Slot) (ctx : Context), R m.openStatement.2 rs m' →
    R m rs (m'.closeStatement m.store.journal.size result ctx)
  deeper : ∀ {m rs m'}, R { m with depth := m.depth + 1 } rs m' →
    R m rs { m' with depth := m'.depth - 1 }
  /-- What evaluates nothing is answered at once. -/
  plain : ∀ {call r m}, ¬ r.Evaluates → R m [(r, m)] (answer call r m).2
  /-- What is done in the course of a request for an evaluation is all that is done about it. -/
  evaluates : ∀ {r m rs m'}, r.Evaluates → R m rs m' → R m ((r, m) :: rs) m'

namespace Tracks

variable {R : Machine β → Record β → Machine β → Prop} {call : Evaluator β} {log : Log β}

section Evaluations

variable (h : Tracks R) (hc : ∀ expr ctx m, R m (log expr ctx m) (call expr ctx m).2)

include h hc

theorem argumentBy (s : Slot) (ctx : Context) (m : Machine β) :
    R m (askedByArgument log s ctx m) (Machine.argumentBy call s ctx m).2 := by
  unfold Machine.argumentBy askedByArgument
  cases m.value s with
  | error e => exact h.refl m
  | ok v =>
    cases v with
    | list items =>
      have hcall := hc items ctx m
      dsimp only
      split <;> next heq => rwa [heq] at hcall
    | _ => exact h.refl m

theorem evaluateOne (statement : List Char) (ctx : Context) (m : Machine β) :
    R m (askedByOne log statement ctx m) (Machine.evaluateOne call statement ctx m).2 := by
  have hparse := h.parse m statement
  unfold Machine.evaluateOne askedByOne
  generalize m.parse statement = parsed at hparse
  obtain ⟨result, m'⟩ := parsed
  cases result with
  | error e => exact hparse
  | ok expr => exact h.trans hparse (hc expr ctx m')

theorem runStatement (keep : Bool) (statement : List Char) (ctx : Context) (m : Machine β) :
    R m (askedByOne log statement ctx m.opened)
      (Machine.runStatement call keep statement ctx m).2 := by
  cases hr : m.config.reclaimTemporaries with
  | false =>
    rw [runStatement_of_not_reclaim hr, opened_of_not_reclaim hr]
    exact h.evaluateOne hc statement ctx m
  | true =>
    rw [opened_of_reclaim hr, runStatement_of_reclaim hr]
    exact h.statement _ _ (h.evaluateOne hc statement ctx _)

theorem runStatements (statements : List (List Char)) (ctx : Context) (m : Machine β) :
    R m (askedByStatements call log statements ctx m)
      (Machine.runStatements call statements ctx m).2 := by
  fun_induction Machine.runStatements call statements ctx m with
  | case1 ctx m => exact h.refl m
  | case2 statement ctx m =>
    have hlast : askedByStatements call log [statement] ctx m =
        askedByOne log statement ctx m.opened := by
      rw [askedByStatements]
      split <;> exact List.append_nil _
    rw [hlast]
    exact h.runStatement hc true statement ctx m
  | case3 statement rest ctx m _ e ctx' m' heq =>
    have hrun := h.runStatement hc false statement ctx m
    rw [askedByStatements, heq, List.append_nil]
    rwa [heq] at hrun
  | case4 statement rest ctx m _ r ctx' m' heq ih =>
    have hrun := h.runStatement hc false statement ctx m
    rw [askedByStatements, heq]
    rw [heq] at hrun
    exact h.trans hrun ih

theorem evalTextBy (source : String) (ctx : Context) (m : Machine β) :
    R m (askedWithin call log (.eval source ctx) m) (Machine.evalTextBy call source ctx m).2 := by
  unfold Machine.evalTextBy
  rw [askedWithin]
  cases Syntax.statements ';' source.toList with
  | error e => exact h.refl m
  | ok statements => exact h.runStatements hc statements ctx m

theorem answer (r : Request β) (m : Machine β) :
    R m ((r, m) :: askedWithin call log r m) (Machine.answer call r m).2 := by
  cases r with
  | evaluate expr ctx => exact h.evaluates trivial (hc expr ctx m)
  | argument s ctx => exact h.evaluates trivial (h.argumentBy hc s ctx m)
  | eval source ctx => exact h.evaluates trivial (h.evalTextBy hc source ctx m)
  | _ => exact h.plain id

theorem runAction {α : Type} (act : Action β α) (m : Machine β) :
    R m (askedByAction call log act m) (Machine.runAction call act m).2 := by
  induction act generalizing m with
  | done a => exact h.refl m
  | ask r next ih => exact h.trans (h.answer hc r m) (ih _ _)

theorem apply (lib : Library β) (head : Slot) (args : List Slot) (ctx : Context) (m : Machine β) :
    R m (askedByCall call log lib head args ctx m) (Machine.apply lib call head args ctx m).2 := by
  unfold Machine.apply askedByCall
  cases m.operator ctx head with
  | error e => exact h.refl m
  | ok s =>
    dsimp only
    cases m.value s with
    | error e => exact h.refl m
    | ok v =>
      cases v with
      | builtin name code => exact h.runAction hc _ m
      | _ => exact h.refl m

end Evaluations

theorem evaluateAt (h : Tracks R) (lib : Library β) (room : Nat) :
    ∀ expr ctx m, R m (askedAt lib room expr ctx m) (Machine.evaluateAt lib room expr ctx m).2 := by
  induction room with
  | zero =>
    intro expr ctx m
    cases expr with
    | nil => exact h.refl m
    | cons head args => exact h.refl m
  | succ room ih =>
    intro expr ctx m
    cases expr with
    | nil => exact h.refl m
    | cons head args => exact h.deeper (h.apply ih lib head args ctx _)

/-- What is tracked holds of every request, with the requests that are made in the course of it. -/
theorem perform (h : Tracks R) (lib : Library β) (r : Request β) (m : Machine β) :
    R m ((r, m) :: recorded lib r m) (m.perform lib r).2 :=
  h.answer (fun expr ctx m => h.evaluateAt lib _ expr ctx m) r m

end Tracks

/-! ## What is released by request -/

/-- One of the requests is to release a slot. -/
def Record.Frees (rs : Record β) (s : Slot) : Prop :=
  ∃ e ∈ rs, e.1.frees e.2 s = true

instance (rs : Record β) (s : Slot) : Decidable (rs.Frees s) :=
  inferInstanceAs (Decidable (∃ e ∈ rs, e.1.frees e.2 s = true))

/-- In an evaluation nothing is released by request but what one of its requests asks for. -/
theorem tracks_freesOnly :
    Tracks fun (m : Machine β) rs m' => m.store.WF → FreesOnly rs.Frees m m' where
  refl m _ := .refl _ m
  trans hm hm' hwf := by
    have hfirst := hm hwf
    obtain ⟨es, hrun⟩ := hfirst.exists_run
    refine (hfirst.mono fun s => ?_).trans ((hm' (hrun.wf hwf)).mono fun s => ?_)
    · exact fun ⟨e, he, hs⟩ => ⟨e, List.mem_append_left _ he, hs⟩
    · exact fun ⟨e, he, hs⟩ => ⟨e, List.mem_append_right _ he, hs⟩
  parse m source hwf := (freesOnly_parse hwf source).mono fun _ => False.elim
  statement result ctx hm hwf := by
    obtain ⟨es, hrun, hes⟩ := hm hwf.openJournal
    obtain ⟨rs, hclosed⟩ := exists_run_closeStatement hrun result ctx
    refine ⟨_, hclosed, fun s hs => hes s ?_⟩
    simpa using hs
  deeper hm hwf := by
    obtain ⟨es, hrun, hes⟩ := hm hwf
    exact ⟨es, .deeper hrun, hes⟩
  plain hr hwf := (freesOnly_plain hwf hr).mono fun s hs => ⟨_, List.mem_singleton_self _, hs⟩
  evaluates _ hm hwf := (hm hwf).mono fun s ⟨e, he, hs⟩ => ⟨e, List.mem_cons_of_mem _ he, hs⟩

end Machine

end SlotScript
