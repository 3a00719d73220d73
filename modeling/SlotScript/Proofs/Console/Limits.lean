import SlotScript.Proofs.Console.Invisibility
import SlotScript.Proofs.Machine.Contracts
import SlotScript.Proofs.Machine.Depth
import SlotScript.Proofs.Machine.Turning

/-!
# The depth limits agree

Three parts of a machine count how deep they go: reading counts open brackets, evaluating counts the
expressions that it is in the midst of, and writing counts the lists around a slot. All three stop
at the same limit, and reading is the first to do so: a statement that has been read never goes too
deep after that (`limits_agree`).

Evaluation goes from an expression to a list among its arguments and nowhere else (`contract`), so
each level of evaluation is a level of brackets of the statement; a list that a name is bound to is
given or written, but not evaluated. And the builtins make no lists, so what there is to write was
read before and is less deep than the limit.

What there is to write stays less deep as long as no place comes round to its first generation. A
table that is left alone can hold a stale slot, which is live again when its place comes round. If
by then the slot is an item of a list in another table, then `set` releases it there and lets
something deeper take its place, so that writing the list goes too deep although reading never did
(`print_too_deep_of_turned`). Evaluation has room even then.
-/

namespace SlotScript.Console

open Machine Routine
open Event (Sparing)
open SlotScript.Syntax (Balanced Nests statements)

variable {β : Type} {call : Evaluator β} {m m' : Machine β} {ctx ctx' : Context} {st : Store β}
  {config : Config} {depth room k : Nat} {args : List Slot} {s : Slot} {bounded : Prop}

/-! ## What the builtins ask for -/

/-- The builtins ask for their arguments, for values and for texts, and store no lists. If what is
there to write is bounded, then none of the answers goes too deep, and no builtin does. -/
def contract (bounded : Prop) (args : List Slot) : Contract β where
  request
    | .argument s _ => s ∈ args
    | .allocate v => ∀ items, v ≠ .list items
    | .value _ | .render _ | .print _ | .assignGlobal _ _ | .releaseUnreachable _ _ => True
    | _ => False
  reply
    | .argument _ _, (result, _) => bounded → Calm result
    | .value _, result => bounded → Calm result
    | .render _, result => bounded → Calm result
    | _, _ => True
  failure e := bounded → ∀ n, e ≠ .tooDeep n

theorem meets_calm {α : Type} {x : Except Error α} (h : bounded → Calm x) :
    (expect x : Routine β α).Meets (contract bounded args) fun _ => True :=
  meets_expect (fun _ _ => trivial) fun _ he hb n hn => h hb n (hn ▸ he)

theorem calm_asNumber (v : Value β) : Calm v.asNumber := by
  cases v <;> simp [Calm, Value.asNumber]

theorem calm_asSymbol (v : Value β) : Calm v.asSymbol := by
  cases v <;> simp [Calm, Value.asSymbol]

theorem meets_value (s : Slot) :
    (value s : Routine β _).Meets (contract bounded args) fun _ => True :=
  (meets_ask (c := contract bounded args) (r := .value s) trivial).bind fun _ hx => meets_calm hx

theorem meets_render (s : Slot) :
    (render s : Routine β _).Meets (contract bounded args) fun _ => True :=
  (meets_ask (c := contract bounded args) (r := .render s) trivial).bind fun _ hx => meets_calm hx

theorem meets_argument (hs : s ∈ args) :
    (argument s : Routine β _).Meets (contract bounded args) fun _ => True := by
  refine meets_context.bind fun ctx _ => ?_
  refine (meets_ask (c := contract bounded args) (r := .argument s ctx) hs).bind fun answer hx => ?_
  exact (meets_setContext _).bind fun _ _ => meets_calm hx

theorem meets_print : (print args : Routine β _).Meets (contract bounded args) fun _ => True := by
  refine (meets_forEachFrom args [] fun s hs => meets_argument hs).bind fun slots _ => ?_
  have hshown : ∀ s ∈ slots,
      (shown s : Routine β _).Meets (contract bounded args) fun _ => True := by
    intro s _
    refine (meets_value s).bind fun v _ => ?_
    split
    · exact meets_pure trivial
    · exact meets_render s
  refine (meets_forEachFrom slots [] hshown).bind fun words _ => ?_
  exact (meets_ask (c := contract bounded args) (r := .print _) trivial).bind fun _ _ =>
    meets_pure trivial

theorem meets_sumArgs (total : Float) {rest : List Slot} (hrest : rest ⊆ args) :
    (sumArgs total rest : Routine β _).Meets (contract bounded args) fun _ => True := by
  induction rest generalizing total with
  | nil => exact meets_pure trivial
  | cons s rest ih =>
    have hnumber : (numberArg s : Routine β _).Meets (contract bounded args) fun _ => True := by
      refine (meets_argument (hrest List.mem_cons_self)).bind fun r _ => ?_
      exact (meets_value r).bind fun v _ => meets_calm fun _ => calm_asNumber v
    exact hnumber.bind fun x _ => ih _ fun t ht => hrest (List.mem_cons_of_mem _ ht)

theorem meets_add : (add args : Routine β _).Meets (contract bounded args) fun _ => True := by
  have hleast :
      (atLeast "add" args 1 : Routine β _).Meets (contract bounded args) fun _ => True := by
    unfold atLeast
    split
    · exact meets_pure trivial
    · exact meets_throw (by simp [contract])
  refine hleast.bind fun _ _ => ?_
  refine (meets_sumArgs 0 (List.Subset.refl args)).bind fun total _ => ?_
  have hnumber : (contract bounded args : Contract β).request (.allocate (.number total)) := by
    simp [contract]
  exact (meets_ask hnumber).bind fun s _ => meets_pure trivial

theorem meets_assign (name : String) (s : Slot) :
    (assign name s : Routine β _).Meets (contract bounded args) fun _ => True := by
  refine meets_context.bind fun ctx _ => ?_
  cases ctx with
  | none => exact meets_ask (c := contract bounded args) (r := .assignGlobal name s) trivial
  | some t => exact (meets_setContext _).bind fun _ _ => meets_pure trivial

theorem meets_set : (set args : Routine β _).Meets (contract bounded args) fun _ => True := by
  unfold set
  split
  · next target source =>
    have hname : (symbolName target : Routine β _).Meets (contract bounded [target, source])
        fun _ => True :=
      (meets_value target).bind fun v _ => meets_calm fun _ => calm_asSymbol v
    refine hname.bind fun name _ => ?_
    refine (meets_argument (by simp)).bind fun v _ => ?_
    refine (meets_assign name v).bind fun previous _ => ?_
    cases previous with
    | none => exact meets_pure trivial
    | some p =>
      refine meets_context.bind fun ctx _ => ?_
      exact (meets_ask (c := contract bounded _) (r := .releaseUnreachable p ctx) trivial).bind
        fun _ _ => meets_pure trivial
  · exact meets_throw (by simp [contract])

theorem meets_routine (c : Command) (args : List Slot) :
    (routine c args : Routine β _).Meets (contract bounded args) fun _ => True := by
  cases c with
  | print => exact meets_print
  | add => exact meets_add
  | set => exact meets_set

/-! ## Evaluating makes no lists -/

theorem Moves.trims {a b : Moment β} {es : List Event} (h : Moves a es b)
    (ha : a.machine.store.WF) : a.machine.store.Trims b.machine.store := by
  induction h with
  | refl a => exact .refl _
  | trans h _ ih ih' => exact (ih ha).trans (ih' (h.changes.wf ha))
  | aside hs _ _ => exact .of_get? fun s => by rw [hs]
  | give a x => exact .allocate ha (by simp)
  | bind _ hb hrel _ =>
    rw [← hb.store]
    exact hrel.trims

theorem Leads.trims {α : Type} {a : Moment β} {out : Outcome α × Machine β}
    {post : α → Moment β → Prop} (h : Leads a out post) (ha : a.machine.store.WF) :
    a.machine.store.Trims out.2.store := by
  obtain ⟨es, own, hmoves, -⟩ := h
  exact hmoves.trims ha

/-- An evaluator of the command line's builtins, as far as its effects go. -/
structure Tame (call : Evaluator β) : Prop where
  behaves : Behaves call
  runs : Runs call

namespace Tame

variable (h : Tame call)

include h

theorem trims (hm : m.store.WF) (expr : List Slot) (ctx : Context) :
    m.store.Trims (call expr ctx m).2.store :=
  Leads.trims (h.behaves ⟨m, ctx, fun _ => True⟩ expr ⟨hm, fun _ _ _ _ => trivial⟩
    fun _ _ => trivial) hm

theorem trims_argumentBy (hm : m.store.WF) (s : Slot) (ctx : Context) :
    m.store.Trims (argumentBy call s ctx m).2.store :=
  Leads.trims (leads_argumentBy (a := ⟨m, ctx, fun _ => True⟩) h.behaves
    ⟨hm, fun _ _ _ _ => trivial⟩ trivial) hm

end Tame

theorem tame_evaluateAt (room : Nat) : Tame (evaluateAt library room) :=
  ⟨behaves_evaluateAt room, runs_evaluateAt library room⟩

theorem tame_evaluate : Tame (evaluate library) :=
  ⟨behaves_evaluate, runs_evaluate library⟩

/-- A machine at a depth in the midst of an evaluation: all its lists were there at the start. -/
structure Amid (st : Store β) (config : Config) (depth : Nat) (m : Machine β) : Prop
    extends Level config depth m where
  trims : st.Trims m.store

theorem Amid.answer (hcall : Tame call) (h : Amid st config depth m) {r : Request β}
    (hr : (contract bounded args).request r) :
    Amid st config depth (Machine.answer call r m).2 := by
  obtain ⟨es, hrun⟩ := exists_run_answer hcall.runs h.wf r
  refine ⟨h.toLevel.run hrun, h.trims.trans ?_⟩
  cases r with
  | argument s ctx => exact hcall.trims_argumentBy h.wf s ctx
  | allocate v => exact .allocate h.wf hr
  | value s => exact .refl _
  | render s => exact .refl _
  | print line => exact .refl _
  | assignGlobal name s => exact .refl _
  | releaseUnreachable s ctx =>
    obtain ⟨rs, hrel, -⟩ := exists_releases_releaseAllUnreachable m ctx [s]
    exact hrel.trims
  | _ => exact hr.elim

/-! ## Evaluating -/

/-- An evaluator that has `room` for the lists of an expression, the expression itself counted. -/
def Copes (call : Evaluator β) (st : Store β) (config : Config) (depth room : Nat) : Prop :=
  ∀ expr ctx m k, Amid st config depth m → (∀ s ∈ expr, st.Shallow k s) → k < room →
    Calm (call expr ctx m).1.1

/-- The lists of a store are less deep than a limit, which is not zero. -/
structure Bounded (st : Store β) (config : Config) : Prop where
  pos : 0 < config.maxDepth
  shallow : ∀ s, st.Shallow (config.maxDepth - 1) s

theorem Bounded.calm_render (hst : Bounded st config) (h : Amid st config depth m) (s : Slot) :
    Calm (m.render s) :=
  Machine.calm_render (h.config.symm ▸ h.trims.shallow (hst.shallow s)) (h.config.symm ▸ hst.pos)

theorem calm_argumentBy (hcopes : Copes call st config depth room) (h : Amid st config depth m)
    (hs : st.Shallow k s) (hk : k ≤ room) : Calm (argumentBy call s ctx m).1.1 := by
  unfold argumentBy
  split
  · next e he => exact (calm_value m s).error he
  · exact calm_resolve m ctx _
  · next items hv =>
    obtain ⟨j, rfl, hitems⟩ := hs.items (h.trims s items (value_eq_ok_iff.1 hv))
    have hcalm := hcopes items ctx m j h hitems hk
    split
    · next heq =>
      rw [heq] at hcalm
      exact hcalm.error rfl
    · exact calm_error (by simp)
    · exact calm_ok _
  · exact calm_ok _

/-- What the builtins take for granted is what they get. -/
theorem honours (hcall : Tame call) (hst : bounded → Bounded st config)
    (hcopes : bounded → Copes call st config depth room) (hargs : ∀ s ∈ args, st.Shallow k s)
    (hk : bounded → k ≤ room) : Honours call (contract bounded args) (Amid st config depth) := by
  intro r m hr hm
  refine ⟨?_, hm.answer hcall hr⟩
  cases r with
  | argument s ctx => exact fun hb => calm_argumentBy (hcopes hb) hm (hargs s hr) (hk hb)
  | value s => exact fun _ => calm_value m s
  | render s => exact fun hb => (hst hb).calm_render hm s
  | _ => trivial

theorem calm_of_ends {α : Type} {post : α → Prop} {out : Outcome α}
    (h : (contract True args : Contract β).ends post out) : Calm out.1 := by
  obtain ⟨result, ctx⟩ := out
  cases result with
  | ok a => exact calm_ok a
  | error e =>
    intro n hn
    exact h trivial n (Except.error.inj hn)

theorem calm_operator (m : Machine β) (ctx : Context) (head : Slot) :
    Calm (m.operator ctx head) := by
  unfold operator
  split
  · next e he => exact (calm_value m head).error he
  · exact calm_resolve m ctx _
  · exact calm_ok _

section Library

variable {call : Evaluator Command} {st : Store Command} {m : Machine Command}

theorem calm_apply (hcall : Tame call) (hst : Bounded st config)
    (hcopes : Copes call st config depth room) (h : Amid st config depth m) {head : Slot}
    (hargs : ∀ s ∈ args, st.Shallow k s) (hk : k ≤ room) :
    Calm (apply library call head args ctx m).1.1 := by
  unfold apply
  split
  · next e he => exact (calm_operator m ctx head).error he
  · next s _ =>
    split
    · next e he => exact (calm_value m s).error he
    · next code _ =>
      have hhonours : Honours call (contract True args) (Amid st config depth) :=
        honours hcall (fun _ => hst) (fun _ => hcopes) hargs fun _ => hk
      exact calm_of_ends (hhonours.runAction (meets_routine code args ctx) h).1
    · exact calm_ok _

theorem copes_evaluateAt (hst : Bounded st config) (room depth : Nat) :
    Copes (evaluateAt library room) st config depth room := by
  induction room generalizing depth with
  | zero => exact fun _ _ _ k _ _ hk => absurd hk (Nat.not_lt_zero k)
  | succ room ih =>
    intro expr ctx m k h hexpr hk
    cases expr with
    | nil => exact calm_ok _
    | cons head args =>
      have hdeeper : Amid st config (depth + 1) m.deeper :=
        ⟨⟨h.wf, h.config, congrArg (· + 1) h.depth⟩, h.trims⟩
      exact calm_apply (tame_evaluateAt room) hst (ih (depth + 1)) hdeeper
        (fun s hs => hexpr s (List.mem_cons_of_mem _ hs)) (Nat.le_of_lt_succ hk)

theorem copes_evaluate (hst : Bounded st config) (depth : Nat) :
    Copes (evaluate library) st config depth (config.maxDepth - depth) := by
  intro expr ctx m k h hexpr hk
  rw [evaluate, h.config, h.depth]
  exact copes_evaluateAt hst _ depth expr ctx m k h hexpr hk

/-! ## Evaluations inside an evaluation -/

/-- An evaluation whose depth and whose lists together go no deeper than `d`. -/
def Nested (st : Store Command) (config : Config) (d : Nat) (e : Evaluation Command) : Prop :=
  ∃ k, (∀ s ∈ e.expr, st.Shallow k s) ∧ k + e.machine.depth ≤ d ∧
    Amid st config e.machine.depth e.machine

variable {d : Nat} {e e' : Evaluation Command}

/-- What a builtin asks for inside such an evaluation: of evaluations, only those of its
arguments. That does not depend on the answers. -/
theorem Nested.enters (h : Nested st config d e) {r : Request Command} {n : Machine Command}
    (he : Enters library e r n) :
    ∃ k, (∀ s ∈ e.expr, st.Shallow k s) ∧ k + n.depth ≤ d + 1 ∧ (contract False e.expr).request r ∧
      Amid st config n.depth n := by
  obtain ⟨k, hexpr, hk, hamid⟩ := h
  cases he with
  | @call head s args ctx m _ name code _ hroom hop hv hasks =>
    have hdeeper : Amid st config (m.depth + 1) m.deeper :=
      ⟨⟨hamid.wf, hamid.config, rfl⟩, hamid.trims⟩
    have hargs : ∀ s ∈ args, st.Shallow k s := fun s hs => hexpr s (List.mem_cons_of_mem _ hs)
    have hk : k + m.depth ≤ d := hk
    have hhonours : Honours (evaluate library) (contract False args)
        (Amid st config (m.depth + 1)) :=
      honours tame_evaluate False.elim (fun hb => (copes_evaluate hb.elim _)) hargs False.elim
    obtain ⟨hr, hn⟩ := hhonours.of_asks hasks (meets_routine code args ctx) hdeeper
    rw [hn.depth]
    refine ⟨k, hexpr, by omega, ?_, hn⟩
    cases r with
    | argument s ctx => exact List.mem_cons_of_mem head hr
    | _ => exact hr

theorem Nested.inside (h : Nested st config d e) (hin : Inside library e e') :
    Nested st config d e' := by
  obtain ⟨r, n, henters, hbegins⟩ := hin
  obtain ⟨k, hexpr, hk, hr, hn⟩ := h.enters henters
  cases hbegins with
  | evaluate expr ctx => exact hr.elim
  | eval _ _ _ => exact hr.elim
  | @argument s items ctx hv =>
    obtain ⟨j, rfl, hitems⟩ := (hexpr s hr).items (hn.trims s items (value_eq_ok_iff.1 hv))
    exact ⟨j, hitems, by show j + n.depth ≤ d; omega, hn⟩

theorem Nested.reflTransGen (h : Nested st config d e)
    (hin : Relation.ReflTransGen (Inside library) e e') : Nested st config d e' := by
  induction hin with
  | refl => exact h
  | tail _ hlast ih => exact ih.inside hlast

theorem Nested.calm (hst : Bounded st config) (hd : d < config.maxDepth)
    (h : Nested st config d e) : Calm (evaluate library e.expr e.ctx e.machine).1.1 := by
  obtain ⟨k, hexpr, hk, hamid⟩ := h
  exact copes_evaluate hst _ e.expr e.ctx e.machine k hamid hexpr (by omega)

end Library

/-! ## Statements -/

section Statements

variable {m'' : Machine β} {keep : Bool} {statement : List Char} {before after : List (List Char)}
  {expr : List Slot}

theorem wf_opened (hm : m.store.WF) : (opened m).store.WF := by
  unfold opened
  split
  · exact hm.openJournal
  · exact hm

theorem flat_opened (h : Flat m) : Flat (opened m) := by
  have htrims : m.store.Trims (opened m).store := .of_get? fun _ => get?_opened
  refine ⟨wf_opened h.wf, fun s => ?_, ?_, depth_opened.trans h.depth⟩
  · rw [config_opened]
    exact htrims.shallow (h.shallow s)
  · unfold opened
    split <;> exact h.issued

theorem exists_opened_parse (hk : Nests k statement) (hroom : k < m.config.maxDepth) :
    ∃ expr m', (opened m).parse statement = (.ok expr, m') := by
  rw [← config_opened] at hroom
  obtain ⟨expr, hexpr⟩ := exists_parse_eq_ok hk hroom
  exact ⟨expr, _, Prod.ext hexpr rfl⟩

theorem flat_evaluateOne (hcall : Tame call) (h : Flat m)
    (hlast : m.store.Lasts (evaluateOne call statement ctx m).2.store) :
    Flat (evaluateOne call statement ctx m).2 := by
  rw [evaluateOne_eq_next] at hlast ⊢
  cases hparse : m.parse statement with
  | mk result m' =>
    rw [hparse] at hlast
    cases result with
    | error e => exact h.undoes (undoes_of_parse h.wf hparse) hlast
    | ok expr =>
      obtain ⟨ss, hloads⟩ := exists_loads_of_parse h.wf hparse
      obtain ⟨es, hrun⟩ := hcall.runs expr ctx m' (hloads.stores.wf h.wf)
      obtain ⟨hread, hrest⟩ := hlast.split hloads.stores.run.changes hrun.changes
      have hflat := h.parse hparse hread
      exact hflat.trims (hcall.trims hflat.wf expr ctx) hrest hrun.config hrun.depth

theorem flat_runStatement (hcall : Tame call) (h : Flat m)
    (hlast : m.store.Lasts (runStatement call keep statement ctx m).2.store) :
    Flat (runStatement call keep statement ctx m).2 := by
  obtain ⟨hmid, hstart⟩ := lasts_opened hcall.runs hlast
  have hone := flat_evaluateOne hcall (flat_opened h) hstart
  cases hr : m.config.reclaimTemporaries with
  | false =>
    rw [opened_of_not_reclaim hr] at hone
    rw [runStatement_of_not_reclaim hr]
    exact hone
  | true =>
    rw [opened_of_reclaim hr] at hone hmid
    rw [runStatement_of_reclaim hr] at hlast ⊢
    exact hone.trims (trims_closeStatement _ _ _ _) (lasts_closeStatement hmid hlast)
      config_closeStatement depth_closeStatement

theorem flat_passes (hcall : Tame call) (hp : Passes call before ctx m ctx' m') (h : Flat m)
    (hlast : m.store.Lasts m'.store) : Flat m' := by
  induction hp with
  | nil => exact h
  | @cons statement rest ctx ctx' ctx'' m m' m'' result hrun hrest ih =>
    obtain ⟨es, hfirst⟩ := exists_run_runStatement hcall.runs h.wf false statement ctx
    rw [hrun] at hfirst
    obtain ⟨es', hsecond⟩ := hrest.exists_run hcall.runs (hfirst.wf h.wf)
    obtain ⟨hlast₁, hlast₂⟩ := hlast.split hfirst.changes hsecond.changes
    have hstatement : m.store.Lasts (runStatement call false statement ctx m).2.store := by
      rwa [hrun]
    have hflat := flat_runStatement hcall h hstatement
    rw [hrun] at hflat
    exact ih hflat hlast₂

theorem flat_runStatements (hcall : Tame call) (h : Flat m) (statements : List (List Char))
    (hlast : m.store.Lasts (runStatements call statements ctx m).2.store) :
    Flat (runStatements call statements ctx m).2 := by
  induction statements generalizing ctx m with
  | nil => exact h
  | cons statement rest ih =>
    cases rest with
    | nil => exact flat_runStatement hcall h hlast
    | cons next rest =>
      rw [runStatements_cons_cons] at hlast ⊢
      obtain ⟨hfirst, hsecond⟩ := (proceeds_runStatements hcall.runs h.wf false statement
        (next :: rest) ctx).lasts hlast.refl_left hlast
      have hflat := flat_runStatement hcall h hfirst
      revert hsecond hflat
      generalize runStatement call false statement ctx m = out
      obtain ⟨⟨result, ctx'⟩, m'⟩ := out
      intro hsecond hflat
      cases result with
      | error e => exact hflat
      | ok result => exact ih hflat hsecond

/-- If no place has come round when a sequence has ended, then none had when its first statement had
been read. -/
theorem lasts_parse (hc : Runs call) {result : Except Error (List Slot)}
    (hparse : (opened m).parse statement = (result, m''))
    (hlast : m.store.Lasts (runStatements call (statement :: after) ctx m).2.store) :
    (opened m).store.Lasts m''.store := by
  have hm := hlast.refl_left.wf
  have hstatement : ∃ keep, m.store.Lasts (runStatement call keep statement ctx m).2.store := by
    cases after with
    | nil => exact ⟨true, hlast⟩
    | cons next rest =>
      rw [runStatements_cons_cons] at hlast
      exact ⟨false, ((proceeds_runStatements hc hm false statement (next :: rest) ctx).lasts
        hlast.refl_left hlast).1⟩
  obtain ⟨keep, hstatement⟩ := hstatement
  obtain ⟨-, hone⟩ := lasts_opened hc hstatement
  have hopened := hone.refl_left.wf
  obtain ⟨es, hread⟩ := exists_run_parse hopened statement
  rw [evaluateOne_eq_next, hparse] at hone
  rw [hparse] at hread
  cases result with
  | error e => exact hone
  | ok expr =>
    obtain ⟨es', hrun⟩ := hc expr ctx m'' (hread.wf hopened)
    exact (hone.split hread.changes hrun.changes).1

/-- A statement of a text is read into a flat machine, if the machine was flat before the text. -/
theorem flat_parse (hcall : Tame call) (h : Flat m)
    (hlast : m.store.Lasts (runStatements call (before ++ statement :: after) ctx m).2.store)
    (hp : Passes call before ctx m ctx' m')
    (hparse : (opened m').parse statement = (.ok expr, m'')) :
    Flat (opened m') ∧ Flat m'' := by
  rw [hp.runStatements_append (List.cons_ne_nil _ _)] at hlast
  obtain ⟨es, hpassed⟩ := hp.exists_run hcall.runs h.wf
  obtain ⟨es', hrest⟩ :=
    exists_run_runStatements hcall.runs (statement :: after) ctx' m' (hpassed.wf h.wf)
  obtain ⟨hlast₁, hlast₂⟩ := hlast.split hpassed.changes hrest.changes
  have hopened := flat_opened (flat_passes hcall hp h hlast₁)
  exact ⟨hopened, hopened.parse hparse (lasts_parse hcall.runs hparse hlast₂)⟩

end Statements

/-- A statement is evaluated within the limit. Every evaluation that it comes to finds room, and
evaluations nest one level deeper than brackets at most. -/
structure Descends (statement : List Char) (first : Evaluation Command) : Prop where
  room : ∀ e, Relation.ReflTransGen (Inside library) first e →
    e.machine.depth < e.machine.config.maxDepth
  depth : ∀ k e, Nests k statement → Relation.ReflTransGen (Inside library) first e →
    e.machine.depth + 1 ≤ k + 1

/-- What was read from a statement is evaluated without going too deep: neither the statement does,
nor anything that is evaluated or written inside it. -/
structure Fits (statement : List Char) (ctx : Context) (m : Machine Command)
    (first : Evaluation Command) : Prop where
  outcome : ∀ keep, Calm (runStatement (evaluate library) keep statement ctx m).1.1
  evaluated : ∀ e, Relation.ReflTransGen (Inside library) first e →
    Calm (evaluate library e.expr e.ctx e.machine).1.1
  written : ∀ e s n, Relation.ReflTransGen (Inside library) first e →
    Enters library e (.render s) n → Calm (n.render s)

section Read

variable {m m' : Machine Command} {source : List Char} {expr : List Slot}

/-- The expression that was read is as deep as the brackets of the text nest. -/
theorem exists_nested_of_parse (hm : m.store.WF) (hdepth : m.depth = 0)
    (hparse : m.parse source = (.ok expr, m')) (ctx : Context) :
    ∃ d, d < m'.config.maxDepth ∧ (∀ k, Nests k source → k = d) ∧
      Nested m'.store m'.config d ⟨expr, ctx, m'⟩ := by
  obtain ⟨d, hd, hnests, hexpr⟩ := exists_shallow_of_parse hm hparse
  obtain ⟨es, hrun⟩ := exists_run_parse hm source
  rw [hparse] at hrun
  have hdepth' : m'.depth = 0 := hrun.depth.trans hdepth
  exact ⟨d, hd, hnests, d, hexpr, Nat.le_of_eq (congrArg (d + ·) hdepth'),
    ⟨hrun.wf hm, rfl, rfl⟩, .refl _⟩

theorem descends_of_parse (hm : m.store.WF) (hdepth : m.depth = 0)
    (hparse : m.parse source = (.ok expr, m')) (ctx : Context) :
    Descends source ⟨expr, ctx, m'⟩ := by
  obtain ⟨d, hd, hnests, hfirst⟩ := exists_nested_of_parse hm hdepth hparse ctx
  refine ⟨fun e he => ?_, fun k e hk he => ?_⟩
  · obtain ⟨j, -, hj, hamid⟩ := hfirst.reflTransGen he
    rw [hamid.config]
    omega
  · obtain ⟨j, -, hj, -⟩ := hfirst.reflTransGen he
    rw [hnests k hk]
    omega

theorem fits_of_parse (h : Flat (opened m)) (h' : Flat m')
    (hparse : (opened m).parse source = (.ok expr, m')) :
    Fits source ctx m ⟨expr, ctx, m'⟩ := by
  obtain ⟨d, hd, -, hfirst⟩ := exists_nested_of_parse h.wf h.depth hparse ctx
  have hst : Bounded m'.store m'.config := ⟨Nat.zero_lt_of_lt hd, h'.shallow⟩
  refine ⟨fun keep => ?_, fun e he => ?_, fun e s n he hs => ?_⟩
  · rw [runStatement_fst, evaluateOne_eq_next, hparse]
    exact hfirst.calm hst hd
  · exact (hfirst.reflTransGen he).calm hst hd
  · obtain ⟨k, -, -, -, hn⟩ := (hfirst.reflTransGen he).enters hs
    exact hst.calm_render hn s

end Read

/-! ## Texts -/

/-- A new machine has no lists. -/
theorem flat_machine (config : Config) : Flat (machine config) := by
  have hno : ∀ s items, (.fresh config : Machine Command).store.get? s ≠ some (.list items) :=
    fun s items hget => nomatch hget
  have hfresh : Flat (.fresh config : Machine Command) := by
    refine ⟨.empty, fun s => .of_not_list (hno s) _, fun s t ht => ?_, rfl⟩
    obtain ⟨items, hget, -⟩ := Store.exists_list_of_mem_items ht
    exact absurd hget (hno s items)
  have hempty : (Store.empty : Store Command).WF := .empty
  have htrims : (.fresh config : Machine Command).store.Trims (machine config).store :=
    ((Store.Trims.allocate (v := .builtin "print" .print) hempty (by simp)).trans
      (.allocate (v := .builtin "add" .add) hempty.allocate (by simp))).trans
        (.allocate (v := .builtin "set" .set) hempty.allocate.allocate (by simp))
  have hchanges := (run_machine config).changes
  have hreleased : (machine config).store.tally.released < UInt32.size := by
    show 0 < UInt32.size
    decide
  exact hfresh.trims htrims ⟨[], _, .empty, hchanges, hchanges.sparing hreleased⟩ rfl rfl

theorem Desk.flat_eval {d : Desk} (h : Flat d.machine) {task : Task}
    (hlast : d.machine.store.Lasts (d.eval task).2.machine.store) :
    Flat (d.eval task).2.machine := by
  have heval : (d.eval task).2.machine =
    (evalTextBy (evaluate library) task.source (task.table.map d.tables) d.machine).2 := rfl
  rw [heval] at hlast ⊢
  unfold evalTextBy at hlast ⊢
  split
  · exact h
  · next ps hps =>
    rw [hps] at hlast
    exact flat_runStatements tame_evaluate h ps hlast

theorem Desk.flat_run {d : Desk} (h : Flat d.machine) (tasks : List Task)
    (hlast : d.machine.store.Lasts (d.run tasks).machine.store) : Flat (d.run tasks).machine := by
  induction tasks generalizing d with
  | nil => exact h
  | cons task tasks ih =>
    obtain ⟨hfirst, hrest⟩ := Desk.lasts_cons hlast
    exact ih (Desk.flat_eval h hfirst) hrest

/-- What all texts leave alone. -/
theorem Desk.run_start (config : Config) (tasks : List Task) :
    let m := ((Desk.start config).run tasks).machine
    m.store.WF ∧ m.config = config ∧ m.depth = 0 := by
  intro m
  have hstart := flat_machine config
  obtain ⟨es, hrun⟩ := Desk.exists_run_run (.start config) hstart.wf tasks
  exact ⟨hrun.wf hstart.wf, hrun.config, hrun.depth.trans hstart.depth⟩

theorem runStatements_ne_some {m : Machine β} (hm : m.config.maxDepth = 0)
    (ps : List (List Char)) (s : Slot) : (runStatements call ps ctx m).1.1 ≠ .ok (some s) := by
  cases ps with
  | nil => simp [runStatements]
  | cons statement rest =>
    have hparse : ((opened m).parse statement).1 = .error (.tooDeep 0) := by
      rw [parse, config_opened, hm]
    have hfirst : runStatement call false statement ctx m =
        ((.error (.tooDeep 0), ctx), (runStatement call false statement ctx m).2) :=
      Prod.ext (runStatement_of_parse_error hparse) rfl
    have hall : runStatements call ([] ++ statement :: rest) ctx m = _ :=
      (Passes.nil ctx m).runStatements_of_error hfirst
    rw [List.nil_append] at hall
    simp [hall]

section Library

variable {m : Machine Command} {before after ps : List (List Char)} {statement : List Char}

theorem fits_of_passes {m' m'' : Machine Command} {expr : List Slot} (h : Flat m)
    (hlast : m.store.Lasts
      (runStatements (evaluate library) (before ++ statement :: after) ctx m).2.store)
    (hp : Passes (evaluate library) before ctx m ctx' m')
    (hparse : (opened m').parse statement = (.ok expr, m'')) :
    Fits statement ctx' m' ⟨expr, ctx', m''⟩ := by
  obtain ⟨hopened, hread⟩ := flat_parse tame_evaluate h hlast hp hparse
  exact fits_of_parse hopened hread hparse

theorem descends_of_passes {m' m'' : Machine Command} {expr : List Slot} (hm : m.store.WF)
    (hdepth : m.depth = 0) (hp : Passes (evaluate library) before ctx m ctx' m')
    (hparse : (opened m').parse statement = (.ok expr, m'')) :
    Descends statement ⟨expr, ctx', m''⟩ := by
  obtain ⟨es, hpassed⟩ := hp.exists_run tame_evaluate.runs hm
  exact descends_of_parse (wf_opened (hpassed.wf hm))
    (depth_opened.trans (hpassed.depth.trans hdepth)) hparse ctx'

theorem config_opened_of_passes {m' : Machine Command} (hm : m.store.WF)
    (hp : Passes (evaluate library) before ctx m ctx' m') : (opened m').config = m.config := by
  obtain ⟨es, hpassed⟩ := hp.exists_run tame_evaluate.runs hm
  exact config_opened.trans hpassed.config

/-- A statement with too many brackets goes too deep in its text. -/
theorem runStatements_of_deep {m' : Machine Command} (hm : m.store.WF)
    (hp : Passes (evaluate library) before ctx m ctx' m') (hk : Nests k statement)
    (hle : m.config.maxDepth ≤ k) :
    (runStatements (evaluate library) (before ++ statement :: after) ctx m).1.1 =
      .error (.tooDeep m.config.maxDepth) := by
  rw [← config_opened_of_passes hm hp] at hle ⊢
  have hfail : (runStatement (evaluate library) false statement ctx' m').1 =
      (.error (.tooDeep (opened m').config.maxDepth), ctx') :=
    runStatement_of_parse_error (parse_of_deep hk hle)
  rw [hp.runStatements_of_error (Prod.ext hfail rfl)]

/-- Balanced statements go too deep exactly when the first of them that fails does so in its
text. -/
theorem runStatements_tooDeep_iff (h : Flat m) (hps : ∀ p ∈ ps, Balanced p)
    (hlast : m.store.Lasts (runStatements (evaluate library) ps ctx m).2.store) :
    (∃ n, (runStatements (evaluate library) ps ctx m).1.1 = .error (.tooDeep n)) ↔
      ∃ before statement after ctx' m' e k, ps = before ++ statement :: after ∧
        Passes (evaluate library) before ctx m ctx' m' ∧
        (runStatement (evaluate library) false statement ctx' m').1.1 = .error e ∧
        Nests k statement ∧ m.config.maxDepth ≤ k := by
  constructor
  · rintro ⟨n, hn⟩
    obtain ⟨before, statement, after, ctx', m', rfl, hp, herror⟩ :=
      runStatements_eq_error_iff.1 (Prod.ext (Prod.ext hn rfl) rfl)
    obtain ⟨k, hk⟩ := hps statement (List.mem_append_right _ List.mem_cons_self)
    refine ⟨before, statement, after, ctx', m', _, k, rfl, hp, by rw [herror], hk, ?_⟩
    -- If there were room for the brackets, then the statement would have been read.
    by_contra hlt
    have hroom : k < (opened m').config.maxDepth := by
      rw [config_opened_of_passes h.wf hp]
      exact Nat.lt_of_not_le hlt
    obtain ⟨expr, hexpr⟩ := exists_parse_eq_ok hk hroom
    exact (fits_of_passes h hlast hp (Prod.ext hexpr rfl)).outcome false n (by rw [herror])
  · rintro ⟨before, statement, after, ctx', m', e, k, rfl, hp, -, hk, hle⟩
    exact ⟨_, runStatements_of_deep h.wf hp hk hle⟩

end Library

/-! ## The limits -/

/-- Reading stops at the limit before anything else does. Texts are evaluated one after the other,
in numbered tables or without one, on a machine with any limit, and then one more. Each statement of
that one that is read is evaluated within the limit, and one whose brackets nest as deep as the
limit goes too deep.

As long as no place comes round, what was read is also written within the limit, and so is the
result. Therefore a balanced text goes too deep exactly when brackets nest as deep as the limit in
the first statement that fails. The events have to be sparing because of the stale slots in tables
that a text does not use. -/
theorem limits_agree (config : Config) (tasks : List Task) (task : Task) :
    let d := (Desk.start config).run tasks
    let ctx := task.table.map d.tables
    (∀ before statement after ctx' m',
      statements ';' task.source.toList = .ok (before ++ statement :: after) →
      Passes (evaluate library) before ctx d.machine ctx' m' →
      (∀ expr m'', (opened m').parse statement = (.ok expr, m'') →
        Descends statement ⟨expr, ctx', m''⟩) ∧
      ∀ k, Nests k statement → config.maxDepth ≤ k →
        (d.eval task).1 = .error (.tooDeep config.maxDepth)) ∧
    (∃ es, Run (.fresh config) es (d.eval task).2.machine) ∧
    ∀ es, Run (.fresh config) es (d.eval task).2.machine → Sparing es →
      (∀ before statement after ctx' m' expr m'',
        statements ';' task.source.toList = .ok (before ++ statement :: after) →
        Passes (evaluate library) before ctx d.machine ctx' m' →
        (opened m').parse statement = (.ok expr, m'') → Fits statement ctx' m' ⟨expr, ctx', m''⟩) ∧
      (∀ s, (d.eval task).1 = .ok (some s) → Calm ((d.eval task).2.machine.render s)) ∧
      (Balanced task.source.toList →
        ((∃ n, (d.eval task).1 = .error (.tooDeep n)) ↔
          ∃ before statement after ctx' m' e k,
            statements ';' task.source.toList = .ok (before ++ statement :: after) ∧
            Passes (evaluate library) before ctx d.machine ctx' m' ∧
            (runStatement (evaluate library) false statement ctx' m').1.1 = .error e ∧
            Nests k statement ∧ config.maxDepth ≤ k)) := by
  intro d ctx
  obtain ⟨hwf, hconfig, hdepth⟩ : d.machine.store.WF ∧ d.machine.config = config ∧
      d.machine.depth = 0 := Desk.run_start config tasks
  have heval : ∀ ps, statements ';' task.source.toList = .ok ps →
      d.machine.eval library task.source ctx =
        runStatements (evaluate library) ps ctx d.machine := fun ps hps => eval_of_statements hps
  have hresult : ∀ ps, statements ';' task.source.toList = .ok ps →
      (d.eval task).1 = (runStatements (evaluate library) ps ctx d.machine).1.1 :=
    fun ps hps => congrArg (fun out => out.1.1) (heval ps hps)
  refine ⟨fun before statement after ctx' m' hs hp => ⟨fun expr m'' hparse => ?_,
    fun k hk hle => ?_⟩, Desk.exists_run_start config tasks task, fun es hes hsparing => ?_⟩
  · exact descends_of_passes hwf hdepth hp hparse
  · rw [← hconfig] at hle ⊢
    exact (hresult _ hs).trans (runStatements_of_deep hwf hp hk hle)
  obtain ⟨hpast, hlast⟩ := Desk.lasts_start hes hsparing
  have hflat : Flat d.machine := Desk.flat_run (flat_machine config) tasks hpast
  refine ⟨?_, fun s hs => ?_, fun hbalanced => ?_⟩
  · intro before statement after ctx' m' expr m'' hs hp hparse
    have hend : (d.eval task).2.machine = _ := congrArg Prod.snd (heval _ hs)
    rw [hend] at hlast
    exact fits_of_passes hflat hlast hp hparse
  · refine calm_render ((Desk.flat_eval hflat hlast).shallow s) (Nat.pos_of_ne_zero fun hzero => ?_)
    rw [hes.config, ← hconfig] at hzero
    have hresult : (d.machine.eval library task.source ctx).1.1 = .ok (some s) := hs
    unfold Machine.eval evalTextBy at hresult
    split at hresult
    · cases hresult
    · next ps _ => exact runStatements_ne_some (m := d.machine) hzero ps s hresult
  · obtain ⟨ps, hps⟩ := Syntax.exists_statements_eq_ok ';' hbalanced
    have hend : (d.eval task).2.machine = _ := congrArg Prod.snd (heval ps hps)
    rw [hend] at hlast
    rw [hresult ps hps, runStatements_tooDeep_iff hflat (Syntax.balanced_of_mem_statements hps)
      hlast, hconfig, hps]
    simp only [Except.ok.injEq]

/-- A limit of three: the list that `x` is bound to is written, and the brackets of the next
statement nest too deep. -/
theorem limits_agree_three :
    let d := (Desk.start { maxDepth := 3 }).run [⟨"set x (('a'))", some 0⟩]
    let task : Task := ⟨"print x; set y ((('b')))", some 0⟩
    let ctx := task.table.map d.tables
    (d.eval task).1 = .error (.tooDeep 3) ∧ (d.eval task).2.machine.lines = ["(\"a\")"] ∧
      (∃ expr m', (opened d.machine).parse "print x".toList = (.ok expr, m') ∧
        Descends "print x".toList ⟨expr, ctx, m'⟩ ∧
        Fits "print x".toList ctx d.machine ⟨expr, ctx, m'⟩) ∧
      ∃ before statement after ctx' m' e k,
        statements ';' task.source.toList = .ok (before ++ statement :: after) ∧
        Passes (evaluate library) before ctx d.machine ctx' m' ∧
        (runStatement (evaluate library) false statement ctx' m').1.1 = .error e ∧
        Nests k statement ∧ 3 ≤ k := by
  have hout : ((((Desk.start { maxDepth := 3 }).run [⟨"set x (('a'))", some 0⟩]).eval
        ⟨"print x; set y ((('b')))", some 0⟩).1,
      (((Desk.start { maxDepth := 3 }).run [⟨"set x (('a'))", some 0⟩]).eval
        ⟨"print x; set y ((('b')))", some 0⟩).2.machine.lines,
      (((Desk.start { maxDepth := 3 }).run [⟨"set x (('a'))", some 0⟩]).eval
        ⟨"print x; set y ((('b')))", some 0⟩).2.machine.store.tally.released) =
      (.error (.tooDeep 3), ["(\"a\")"], 7) := by cbv
  have hstatements : statements ';' "print x; set y ((('b')))".toList =
      .ok ([] ++ "print x".toList :: ["set y ((('b')))".toList]) := by cbv
  have hbalanced : Balanced "print x; set y ((('b')))".toList :=
    Syntax.walk_top_eq_ok_iff.1 (by cbv)
  have hnests : Nests 0 "print x".toList := Syntax.nests_of_plain (by simp)
  obtain ⟨hresult, hrest⟩ := Prod.mk.inj hout
  obtain ⟨hlines, hreleased⟩ := Prod.mk.inj hrest
  obtain ⟨hdescends, ⟨es, hrun⟩, hagree⟩ := limits_agree { maxDepth := 3 }
    [⟨"set x (('a'))", some 0⟩] ⟨"print x; set y ((('b')))", some 0⟩
  have hsparing : Sparing es := hrun.changes.sparing (by rw [hreleased]; decide)
  obtain ⟨hfits, -, hdeep⟩ := hagree es hrun hsparing
  have hroom : 0 < ((Desk.start { maxDepth := 3 }).run
      [⟨"set x (('a'))", some 0⟩]).machine.config.maxDepth := by
    rw [(Desk.run_start _ _).2.1]
    decide
  obtain ⟨expr, m', hparse⟩ := exists_opened_parse hnests hroom
  exact ⟨hresult, hlines,
    ⟨expr, m', hparse, (hdescends [] _ _ _ _ hstatements (.nil _ _)).1 expr m' hparse,
      hfits [] _ _ _ _ expr m' hstatements (.nil _ _) hparse⟩,
    (hdeep hbalanced).1 ⟨3, hresult⟩⟩

/-! ## Places that come round -/

namespace Desk

variable {d : Desk} {name source : String}

/-- The next place is `n` generations on. -/
def turned (d : Desk) (n : Nat) : Desk :=
  { d with machine := d.machine.turned n }

theorem run_append (d : Desk) (tasks after : List Task) :
    d.run (tasks ++ after) = (d.run tasks).run after :=
  List.foldl_append

theorem wf_turned (h : Idle d.machine name) (n : Nat) : (d.turned n).machine.store.WF :=
  h.wf_turned n

/-- Texts that are an unbound name, one after the other, turn the next place and do nothing else. -/
theorem run_unbound (h : Idle d.machine name)
    (hs : statements ';' source.toList = .ok [source.toList])
    (hread : Syntax.Term.read source.toList = .ok [.symbol name]) (n : Nat) :
    d.run (List.replicate n ⟨source, none⟩) = d.turned n := by
  induction n generalizing d with
  | zero =>
    rw [turned, h.turned_zero]
    rfl
  | succ n ih =>
    have hfirst : (d.eval ⟨source, none⟩).2 = d.turned 1 := by
      rw [Desk.eval, Option.map_none, eval_unbound library h hs hread]
      rfl
    have hrest : (d.turned 1).run (List.replicate n ⟨source, none⟩) = (d.turned 1).turned n :=
      ih (h.turned 1)
    have hboth : (d.turned 1).turned n = d.turned (n + 1) := by
      rw [Nat.add_comm, turned, turned, turned, h.turned_turned]
    rw [List.replicate_succ, Desk.run, List.foldl_cons, hfirst, ← hboth]
    exact hrest

/-- Everything else about an idle desk can be computed. -/
theorem idle_run (hd : d.machine.store.WF) (tasks : List Task)
    (h : let m := (d.run tasks).machine
      m.config.reclaimTemporaries = true ∧ m.depth < m.config.maxDepth ∧ m.store.vacant ≠ [] ∧
        m.store.journal = #[] ∧ m.store.journals = 0 ∧ m.globals.find? name = none ∧
        ∀ r ∈ m.roots none, m.store.items r = [] ∧ r.index ≠ m.store.nextSlot.index) :
    Idle (d.run tasks).machine name := by
  obtain ⟨es, hrun⟩ := d.exists_run_run hd tasks
  obtain ⟨hreclaims, hroom, hvacant, hjournal, hjournals, hunbound, haside⟩ := h
  exact ⟨hrun.wf hd, hreclaims, hroom, hvacant, hjournal, hjournals, hunbound, haside⟩

end Desk

/-- Each of these texts fails and leaves the next place one generation on. -/
private def misses (n : Nat) : List Task :=
  List.replicate n ⟨"missing", none⟩

private theorem run_misses {d : Desk} (h : Idle d.machine "missing") (n : Nat) :
    d.run (misses n) = d.turned n :=
  Desk.run_unbound h (by cbv) (by cbv) n

/-- Table 1 keeps the slot of a value that is released when `v` is set again. The text that fails
leaves its place next. -/
private def outlived : List Task :=
  [⟨"set v 'a'", none⟩, ⟨"set x v", some 1⟩, ⟨"set v 'b'", none⟩, ⟨"a b c", none⟩]

/-- The slot is live again in the midst of the list `y` of table 2, where table 1 lets go of it. The
texts that fail leave the place next. -/
private def returned : List Task :=
  [⟨"a b c", none⟩, ⟨"set y ((('a')))", some 2⟩, ⟨"set x 'c'", some 1⟩, ⟨"a b c d e", none⟩,
    ⟨"a b c", none⟩]

/-- The slot is live once more and holds a list. -/
private def refilled : List Task :=
  [⟨"a b c d e", none⟩, ⟨"set z ((('b')))", none⟩]

private def refilledDesk : Desk :=
  (((((Desk.start { maxDepth := 4 }).run outlived).turned (UInt32.size - 3)).run returned).turned
    (UInt32.size - 4)).run refilled

private theorem idle_outlived :
    Idle ((Desk.start { maxDepth := 4 }).run outlived).machine "missing" :=
  Desk.idle_run (flat_machine _).wf outlived (by decide +kernel)

private theorem idle_returned :
    Idle ((((Desk.start { maxDepth := 4 }).run outlived).turned
      (UInt32.size - 3)).run returned).machine "missing" :=
  Desk.idle_run (Desk.wf_turned idle_outlived _) returned (by decide +kernel)

private theorem eval_refilledDesk :
    (refilledDesk.eval ⟨"print y", some 2⟩).1 = .error (.tooDeep 4) ∧
      (∃ s ∈ (refilledDesk.tables 2).slots, (refilledDesk.eval ⟨"y", some 2⟩).1 = .ok (some s) ∧
        (refilledDesk.eval ⟨"y", some 2⟩).2.machine.render s = .error (.tooDeep 4)) ∧
      0 < refilledDesk.machine.config.maxDepth := by
  decide +kernel

/-- After nearly twice `2 ^ 32` texts a statement without brackets has been read and then goes too
deep all the same, when it writes a list that a text made before. To evaluate the name of the list
gives a slot that cannot be written either. -/
theorem print_too_deep_of_turned :
    let tasks := outlived ++ misses (UInt32.size - 3) ++ returned ++ misses (UInt32.size - 4) ++
      refilled
    let d := (Desk.start { maxDepth := 4 }).run tasks
    Nests 0 "print y".toList ∧
      (∃ expr, ((opened d.machine).parse "print y".toList).1 = .ok expr) ∧
      (d.eval ⟨"print y", some 2⟩).1 = .error (.tooDeep 4) ∧
      ∃ s, (d.eval ⟨"y", some 2⟩).1 = .ok (some s) ∧
        (d.eval ⟨"y", some 2⟩).2.machine.render s = .error (.tooDeep 4) := by
  intro tasks d
  have hd : d = refilledDesk := by
    unfold refilledDesk
    simp only [d, tasks, Desk.run_append]
    rw [run_misses idle_outlived, run_misses idle_returned]
  rw [hd]
  have hnests : Nests 0 "print y".toList := Syntax.nests_of_plain (by simp)
  obtain ⟨hprint, ⟨s, -, hname⟩, hroom⟩ := eval_refilledDesk
  obtain ⟨expr, m', hparse⟩ := exists_opened_parse hnests hroom
  exact ⟨hnests, ⟨expr, congrArg Prod.fst hparse⟩, hprint, s, hname⟩

end SlotScript.Console
