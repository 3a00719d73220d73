import SlotScript.Proofs.Console.Leaks
import SlotScript.Proofs.Machine.Lasting
import SlotScript.Proofs.Machine.Reclamation

/-!
# A local context shields the globals

A text that is evaluated in a local context cannot do anything to the globals. `set` binds names in
the context then, and what it releases, like what the end of a statement releases, is not reached
from a global binding or a retained slot. `Shields m m'` says what is left alone on the way from `m`
to `m'`. It is kept by everything that an evaluation does (`Confined`), as long as what it speaks of
is live to begin with: a slot that is live is not handed out again.

Without a context the globals can change, and slots can be released, but a slot that is still live
has the value it had: no builtin of the command line overwrites a value.
-/

namespace SlotScript.Console

open Machine Routine

variable {β α γ : Type} {m m' m'' : Machine β} {s : Slot} {ss rs : List Slot} {ctx : Context}
  {t : Bindings} {call : Evaluator β}

/-- The global bindings and the retained slots reach live slots only. -/
structure Anchored (m : Machine β) : Prop where
  wf : m.store.WF
  live : ∀ s, m.store.Reaches (m.roots none) s → m.store.isLive s = true

/-- On the way from `m` to `m'` the global bindings and the retained slots stay as they are, and so
do the values of the slots that they reach. -/
structure Shields (m m' : Machine β) : Prop where
  wf : m'.store.WF
  globals : m'.globals = m.globals
  retained : ∀ s, s ∈ m'.retained ↔ s ∈ m.retained
  get? : ∀ s, m.store.Reaches (m.roots none) s → m'.store.get? s = m.store.get? s

/-! ## What is left alone -/

theorem mem_roots_none_iff : s ∈ m.roots none ↔ s ∈ m.globals.slots ∨ s ∈ m.retained := by
  rw [mem_roots_iff]
  exact or_congr_right (or_iff_left List.not_mem_nil)

theorem roots_none_subset (m : Machine β) (ctx : Context) : m.roots none ⊆ m.roots ctx := by
  intro s hs
  exact mem_roots_iff.2 ((mem_roots_none_iff.1 hs).imp id .inl)

theorem anchored_of_flat (hm : m.store.WF)
    (h : ∀ s ∈ m.roots none, m.store.isLive s = true ∧ m.store.items s = []) : Anchored m := by
  refine ⟨hm, fun s hs => (h s (hs.closed (fun r hr => hr) fun r hr u hu => ?_)).1⟩
  rw [(h r hr).2] at hu
  cases hu

namespace Shields

theorem refl (h : Anchored m) : Shields m m :=
  ⟨h.wf, rfl, fun _ => Iff.rfl, fun _ _ => rfl⟩

theorem reaches_iff (h : Shields m m') :
    m'.store.Reaches (m'.roots none) s ↔ m.store.Reaches (m.roots none) s := by
  have hroots : ∀ r, r ∈ m'.roots none ↔ r ∈ m.roots none := by
    intro r
    rw [mem_roots_none_iff, mem_roots_none_iff, h.globals, h.retained]
  have hmoved : m'.store.Reaches (m'.roots none) s ↔ m'.store.Reaches (m.roots none) s :=
    ⟨(·.mono fun r => (hroots r).1), (·.mono fun r => (hroots r).2)⟩
  exact hmoved.trans (Store.Reaches.congr fun r hr => Store.items_congr (h.get? r hr))

theorem anchored (h : Shields m m') (hm : Anchored m) : Anchored m' := by
  refine ⟨h.wf, fun s hs => ?_⟩
  have hs := h.reaches_iff.1 hs
  rw [Store.isLive, h.get? s hs]
  exact hm.live s hs

theorem trans (h : Shields m m') (h' : Shields m' m'') : Shields m m'' :=
  ⟨h'.wf, h'.globals.trans h.globals, fun s => (h'.retained s).trans (h.retained s),
    fun s hs => (h'.get? s (h.reaches_iff.2 hs)).trans (h.get? s hs)⟩

theorem aside (hm : Anchored m) (hs : m'.store = m.store) (hg : m'.globals = m.globals)
    (hr : m'.retained = m.retained) : Shields m m' :=
  ⟨hs ▸ hm.wf, hg, fun _ => by rw [hr], fun _ _ => by rw [hs]⟩

theorem stores (hm : Anchored m) (h : Stores m ss m') : Shields m m' := by
  refine ⟨h.wf hm.wf, h.globals, fun _ => by rw [h.retained], fun s hs => ?_⟩
  obtain ⟨v, hv⟩ := Store.isLive_iff.1 (hm.live s hs)
  rw [hv]
  exact h.get?_of_get? hm.wf hv

theorem undoes (hm : Anchored m) (h : Undoes m m') : Shields m m' := by
  obtain ⟨es, hrun, -⟩ := h.run
  refine ⟨hrun.wf hm.wf, h.globals, fun s => ⟨fun hs => h.retained hs, fun hs => ?_⟩,
    fun s _ => h.get? s⟩
  exact h.mem_retained s hs (hm.live s (.root (mem_roots_none_iff.2 (.inr hs))))

theorem releases (hm : Anchored m) (h : Releases m rs m')
    (hrs : ∀ r ∈ rs, ¬ m.store.Reaches (m.roots ctx) r) : Shields m m' := by
  have hspared : ∀ s, m.store.Reaches (m.roots none) s → s ∉ rs := fun s hs hmem =>
    hrs s hmem (hs.mono (roots_none_subset m ctx))
  refine ⟨h.wf hm.wf, h.globals, fun s => ?_, fun s hs => h.get?_of_notMem (hspared s hs)⟩
  rw [h.retained, List.mem_filter, decide_eq_true_eq]
  exact and_iff_left_of_imp fun hs => hspared s (.root (mem_roots_none_iff.2 (.inr hs)))

theorem parse (hm : Anchored m) (source : List Char) : Shields m (m.parse source).2 := by
  cases h : m.parse source with
  | mk result m' =>
    cases result with
    | error e => exact .undoes hm (undoes_of_parse hm.wf h)
    | ok expr =>
      obtain ⟨ss, hl⟩ := exists_loads_of_parse hm.wf h
      exact .stores hm hl.stores

theorem openStatement (hm : Anchored m) : Shields m m.openStatement.2 :=
  ⟨hm.wf.openJournal, rfl, fun _ => Iff.rfl, fun _ _ => get?_openStatement⟩

theorem closeStatement (hm : Anchored m) (mark : Nat) (result : Option Slot) (ctx : Context) :
    Shields m (m.closeStatement mark result ctx) := by
  have hkept : ∀ s, m.store.Reaches (m.roots none) s →
      m.store.Reaches (result.toList ++ m.roots ctx) s := fun s hs =>
    hs.mono fun r hr => List.mem_append_right _ (roots_none_subset m ctx hr)
  obtain ⟨rs, m', hrel, heq, hrs⟩ := exists_releases_closeStatement m mark result ctx
  refine ⟨(hrel.changes_closeStatement heq).wf hm.wf, globals_closeStatement, fun s => ?_,
    fun s hs => by rw [get?_closeStatement, if_neg fun hc => hc.2 (hkept s hs)]⟩
  have hret : (m.closeStatement mark result ctx).retained = m.retained.filter (· ∉ rs) := by
    rw [heq]
    exact hrel.retained
  rw [hret, List.mem_filter, decide_eq_true_eq]
  refine and_iff_left_of_imp fun hs hmem => ((hrs s).1 hmem).2.2 (hkept s (.root ?_))
  exact mem_roots_none_iff.2 (.inr hs)

end Shields

/-! ## Routines in a local context -/

/-- A step that begins at `m` in a local context ends in a local context and leaves the globals
alone. -/
def Confined (m : Machine β) (out : Outcome α × Machine β) : Prop :=
  (∃ t, out.1.2 = some t) ∧ Shields m out.2

/-- Evaluations in a local context are confined to it. -/
def Confines (call : Evaluator β) : Prop :=
  ∀ expr t m, Anchored m → Confined m (call expr (some t) m)

theorem Confined.still (hm : Anchored m) (r : Except Error α) (t : Bindings) :
    Confined m ((r, some t), m) :=
  ⟨⟨t, rfl⟩, .refl hm⟩

theorem Confined.next {out : Outcome α × Machine β}
    {f : α → Context → Machine β → Outcome γ × Machine β} (h : Confined m out) (hm : Anchored m)
    (hf : ∀ x t m', Anchored m' → Confined m' (f x (some t) m')) : Confined m (next out f) := by
  obtain ⟨⟨t, ht⟩, hs⟩ := h
  obtain ⟨⟨result, ctx⟩, m'⟩ := out
  obtain rfl : ctx = some t := ht
  cases result with
  | error e => exact ⟨⟨t, rfl⟩, hs⟩
  | ok x =>
    obtain ⟨hctx, hs'⟩ := hf x t m' (hs.anchored hm)
    exact ⟨hctx, hs.trans hs'⟩

section Routines

variable (hc : Confines call)

include hc

theorem confined_argumentBy (hm : Anchored m) (s : Slot) (t : Bindings) :
    Confined m (argumentBy call s (some t) m) := by
  unfold argumentBy
  split
  · exact .still hm _ t
  · exact .still hm _ t
  · next items _ =>
    obtain ⟨hctx, hs⟩ := hc items t m hm
    split <;> next heq =>
      rw [heq] at hctx hs
      exact ⟨hctx, hs⟩
  · exact .still hm _ t

theorem confined_argument (hm : Anchored m) (s : Slot) (t : Bindings) :
    Confined m (exec call (argument s) (some t) m) := by
  rw [exec_argument]
  exact confined_argumentBy hc hm s t

omit hc in
theorem confined_forEachFrom {f : α → Routine β γ}
    (hf : ∀ x t m, Anchored m → Confined m (exec call (f x) (some t) m)) (members : List α)
    (done : List γ) (hm : Anchored m) (t : Bindings) :
    Confined m (exec call (forEachFrom f done members) (some t) m) := by
  induction members generalizing m t done with
  | nil => exact .still hm _ t
  | cons x members ih =>
    rw [forEachFrom, exec_bind]
    exact (hf x t m hm).next hm fun c t' m' hm' => ih (c :: done) hm' t'

omit hc in
theorem confined_value_bind (hm : Anchored m) {f : Value β → Routine β γ}
    (hf : ∀ v t m, Anchored m → Confined m (exec call (f v) (some t) m)) (s : Slot) (t : Bindings) :
    Confined m (exec call (value s >>= f) (some t) m) := by
  rw [exec_bind, exec_value]
  exact (Confined.still hm _ t).next hm hf

theorem confined_print (hm : Anchored m) (args : List Slot) (t : Bindings) :
    Confined m (exec call (print args) (some t) m) := by
  unfold print
  rw [exec_bind]
  have hargs := confined_forEachFrom (fun s t m hm => confined_argument hc hm s t) args [] hm t
  refine hargs.next hm fun slots t₁ m₁ hm₁ => ?_
  rw [exec_bind]
  have hshown : ∀ s t m, Anchored m → Confined m (exec call (shown s) (some t) m) := by
    intro s t m hm
    refine confined_value_bind hm (fun v t m hm => ?_) s t
    split
    · exact .still hm _ t
    · rw [exec_render]
      exact .still hm _ t
  refine (confined_forEachFrom hshown slots [] hm₁ t₁).next hm₁ fun words t₂ m₂ hm₂ => ?_
  rw [exec_bind, exec_ask]
  exact ⟨⟨t₂, rfl⟩, .aside hm₂ rfl rfl rfl⟩

theorem confined_numberArg (hm : Anchored m) (s : Slot) (t : Bindings) :
    Confined m (exec call (numberArg s) (some t) m) := by
  unfold numberArg
  rw [exec_bind]
  refine (confined_argument hc hm s t).next hm fun r t₁ m₁ hm₁ => ?_
  refine confined_value_bind hm₁ (fun v t m hm => ?_) r t₁
  rw [exec_expect]
  exact .still hm _ t

theorem confined_sumArgs (hm : Anchored m) (total : Float) (args : List Slot) (t : Bindings) :
    Confined m (exec call (sumArgs total args) (some t) m) := by
  induction args generalizing m t total with
  | nil => exact .still hm _ t
  | cons s args ih =>
    rw [sumArgs, exec_bind]
    exact (confined_numberArg hc hm s t).next hm fun x t₁ m₁ hm₁ => ih hm₁ _ t₁

theorem confined_add (hm : Anchored m) (args : List Slot) (t : Bindings) :
    Confined m (exec call (add args) (some t) m) := by
  unfold add atLeast
  rw [exec_bind]
  split
  · refine (Confined.still hm (.ok ()) t).next hm fun _ t₁ m₁ hm₁ => ?_
    rw [exec_bind]
    refine (confined_sumArgs hc hm₁ 0 args t₁).next hm₁ fun x t₂ m₂ hm₂ => ?_
    rw [exec_give]
    exact ⟨⟨t₂, rfl⟩, .stores hm₂ (.snoc (.nil m₂) _)⟩
  · exact .still hm _ t

/-- `set` binds in the context, and releases nothing that is reached from outside of it. -/
theorem confined_set (hm : Anchored m) (args : List Slot) (t : Bindings) :
    Confined m (exec call (set args) (some t) m) := by
  unfold set
  split
  · next target source =>
    rw [exec_bind]
    have hname : Confined m (exec call (symbolName target) (some t) m) := by
      refine confined_value_bind hm (fun v t m hm => ?_) target t
      rw [exec_expect]
      exact .still hm _ t
    refine hname.next hm fun name t₁ m₁ hm₁ => ?_
    rw [exec_bind]
    refine (confined_argument hc hm₁ source t₁).next hm₁ fun v t₂ m₂ hm₂ => ?_
    rw [exec_bind, exec_assign]
    refine (Confined.still hm₂ _ _).next hm₂ fun previous t₃ m₃ hm₃ => ?_
    cases previous with
    | none => exact .still hm₃ _ t₃
    | some p =>
      obtain ⟨rs, hrel, hrs⟩ := exists_releases_releaseAllUnreachable m₃ (some t₃) [p]
      exact ⟨⟨t₃, rfl⟩, .releases hm₃ hrel fun r hr => ((hrs r).1 hr).2.2⟩
  · exact .still hm _ t

theorem confined_routine (hm : Anchored m) (c : Command) (args : List Slot) (t : Bindings) :
    Confined m (exec call (routine c args) (some t) m) := by
  cases c with
  | print => exact confined_print hc hm args t
  | add => exact confined_add hc hm args t
  | set => exact confined_set hc hm args t

end Routines

/-! ## Evaluations in a local context -/

theorem confined_apply {m : Machine Command} {call : Evaluator Command} (hc : Confines call)
    (hm : Anchored m) (head : Slot) (args : List Slot) (t : Bindings) :
    Confined m (apply library call head args (some t) m) := by
  unfold apply
  split
  · exact .still hm _ t
  · split
    · exact .still hm _ t
    · exact confined_routine hc hm _ args t
    · exact .still hm _ t

theorem confines_evaluateAt (room : Nat) : Confines (evaluateAt library room) := by
  induction room with
  | zero =>
    intro expr t m hm
    cases expr with
    | nil => exact .still hm _ t
    | cons head args => exact .still hm _ t
  | succ room ih =>
    intro expr t m hm
    cases expr with
    | nil => exact .still hm _ t
    | cons head args =>
      have hdeep : Shields m { m with depth := m.depth + 1 } := .aside hm rfl rfl rfl
      have hin := hdeep.anchored hm
      obtain ⟨hctx, hs⟩ := confined_apply ih hin head args t
      exact ⟨hctx, (hdeep.trans hs).trans (.aside (hs.anchored hin) rfl rfl rfl)⟩

theorem confines_evaluate : Confines (evaluate library) :=
  fun expr t m => confines_evaluateAt _ expr t m

section Statements

variable (hc : Confines call)

include hc

theorem confined_evaluateOne (hm : Anchored m) (statement : List Char) (t : Bindings) :
    Confined m (evaluateOne call statement (some t) m) := by
  have hparse := Shields.parse hm statement
  unfold evaluateOne
  split
  · next heq =>
    rw [heq] at hparse
    exact ⟨⟨t, rfl⟩, hparse⟩
  · next expr m' heq =>
    rw [heq] at hparse
    obtain ⟨hctx, hs⟩ := hc expr t m' (hparse.anchored hm)
    exact ⟨hctx, hparse.trans hs⟩

theorem confined_runStatement (hm : Anchored m) (keep : Bool) (statement : List Char)
    (t : Bindings) : Confined m (runStatement call keep statement (some t) m) := by
  cases hr : m.config.reclaimTemporaries with
  | false =>
    rw [runStatement_of_not_reclaim hr]
    exact confined_evaluateOne hc hm statement t
  | true =>
    rw [runStatement_of_reclaim hr]
    have hopen := Shields.openStatement hm
    have hin := hopen.anchored hm
    obtain ⟨hctx, hs⟩ := confined_evaluateOne hc hin statement t
    exact ⟨hctx, (hopen.trans hs).trans (.closeStatement (hs.anchored hin) _ _ _)⟩

theorem confined_runStatements (statements : List (List Char)) (ctx : Context) (m : Machine β)
    (hctx : ∃ t, ctx = some t) (hm : Anchored m) :
    Confined m (runStatements call statements ctx m) := by
  fun_induction runStatements call statements ctx m with
  | case1 ctx m => exact ⟨hctx, .refl hm⟩
  | case2 statement ctx m =>
    obtain ⟨t, rfl⟩ := hctx
    exact confined_runStatement hc hm true statement t
  | case3 statement rest ctx m _ e ctx' m' heq =>
    obtain ⟨t, rfl⟩ := hctx
    have h := confined_runStatement hc hm false statement t
    rwa [heq] at h
  | case4 statement rest ctx m _ r ctx' m' heq ih =>
    obtain ⟨t, rfl⟩ := hctx
    obtain ⟨hctx', hs⟩ := confined_runStatement hc hm false statement t
    rw [heq] at hctx' hs
    obtain ⟨hctx'', hs'⟩ := ih hctx' (hs.anchored hm)
    exact ⟨hctx'', hs.trans hs'⟩

end Statements

theorem shields_eval {m : Machine Command} (hm : Anchored m) (source : String) (t : Bindings) :
    Shields m (m.eval library source (some t)).2 := by
  unfold Machine.eval evalTextBy
  split
  · exact .refl hm
  · exact (confined_runStatements confines_evaluate _ _ m ⟨t, rfl⟩ hm).2

/-! ## Values that stay -/

/-- A slot that is live before a text and after it has kept its value, as long as no place comes
round to its first generation. -/
theorem get?_eval_of_isLive {m : Machine Command} {source : String}
    (hlast : m.store.Lasts (m.eval library source ctx).2.store) (hs : m.store.isLive s = true)
    (hs' : (m.eval library source ctx).2.store.isLive s = true) :
    (m.eval library source ctx).2.store.get? s = m.store.get? s := by
  obtain ⟨past, es, ha, -, -⟩ := id hlast
  obtain ⟨es', hcarries⟩ := exists_carries_eval ha.wf source ctx
  obtain ⟨past', ha', hes⟩ := hlast.accounts hcarries.changes
  have hkeeps := hcarries.keeps past' ha' hes m ctx (.refl m ctx)
  refine (hkeeps.value s (.inl hs)).resolve_right fun hlost => ?_
  exact ne_of_isLive hs' hlost.1 rfl

/-- No place comes round in few releases. -/
theorem lasts_eval_of_released {m : Machine Command} {config : Config} {past : List Event} {n : Nat}
    (hpast : Run (.fresh config) past m) (source : String) (ctx : Context)
    (hreleased : (m.eval library source ctx).2.store.tally.released = n) (hn : n < UInt32.size) :
    m.store.Lasts (m.eval library source ctx).2.store := by
  have hacc : Store.Accounts past m.store := Store.Accounts.empty.changes hpast.changes
  obtain ⟨es, hrun⟩ : ∃ es, Run m es (m.eval library source ctx).2 :=
    exists_run_eval library hacc.wf source ctx
  exact ⟨past, es, hacc, hrun.changes, (hpast.trans hrun).changes.sparing (hreleased ▸ hn)⟩

/-- A text that is evaluated in a local context, successfully or not, leaves the global bindings and
the retained slots as they are, and every slot that they reach, if all of these are live. In every
context a slot that is live before and after the evaluation has kept its value. -/
theorem eval_isolates {m : Machine Command} (hm : m.Arises) (source : String) :
    ((∀ s, m.store.Reaches (m.roots none) s → m.store.isLive s = true) → ∀ t : Bindings,
      let m' := (m.eval library source (some t)).2
      m'.globals = m.globals ∧ (∀ s, s ∈ m'.retained ↔ s ∈ m.retained) ∧
        ∀ s, m.store.Reaches (m.roots none) s →
          m'.store.isLive s = true ∧ m'.store.get? s = m.store.get? s) ∧
    ∀ ctx : Context,
      let m' := (m.eval library source ctx).2
      m.store.Lasts m'.store → ∀ s, m.store.isLive s = true → m'.store.isLive s = true →
        m'.store.get? s = m.store.get? s := by
  refine ⟨?_, fun ctx hlast s hs hs' => get?_eval_of_isLive hlast hs hs'⟩
  intro hlive t m'
  have hshields : Shields m m' := shields_eval ⟨hm.wf, hlive⟩ source t
  refine ⟨hshields.globals, hshields.retained, fun s hs => ?_⟩
  have hsame := hshields.get? s hs
  exact ⟨by rw [Store.isLive, hsame]; exact hlive s hs, hsame⟩

/-- The context binds a name to the slot of a global one, rebinds it twice and then fails. -/
theorem eval_isolates_shared :
    let m : Machine Command := ((machine {}).register "x" (.text "a")).2
    let out := m.eval library "set y \"b\"; set y \"c\"; z" (some ⟨[("y", ⟨3, 0⟩)]⟩)
    m.Arises ∧ (∀ s, m.store.Reaches (m.roots none) s → m.store.isLive s = true) ∧
      out.1 = (.error (.undefinedSymbol "z"), some ⟨[("y", ⟨7, 0⟩)]⟩) ∧
      out.2.globals = m.globals ∧ out.2.store.get? ⟨3, 0⟩ = some (.text "a") ∧
      m.store.Lasts out.2.store ∧
      ∀ s, m.store.isLive s = true → out.2.store.isLive s = true →
        out.2.store.get? s = m.store.get? s := by
  have hout : (((machine {}).register "x" (.text "a")).2.eval library
      "set y \"b\"; set y \"c\"; z" (some ⟨[("y", ⟨3, 0⟩)]⟩)).1 =
        (.error (.undefinedSymbol "z"), some ⟨[("y", ⟨7, 0⟩)]⟩) := by cbv
  have hreleased : (((machine {}).register "x" (.text "a")).2.eval library
      "set y \"b\"; set y \"c\"; z" (some ⟨[("y", ⟨3, 0⟩)]⟩)).2.store.tally.released = 6 := by cbv
  have hfew : 6 < UInt32.size := by decide
  obtain ⟨past, hpast⟩ : ∃ past, Run (.fresh {}) past ((machine {}).register "x" (.text "a")).2 :=
    ⟨_, (run_machine {}).trans (.register _ "x" (.text "a"))⟩
  have hlast := lasts_eval_of_released hpast _ _ hreleased hfew
  have hm := (Arises.fresh {}).run hpast
  have hlive := (anchored_of_flat hm.wf (by decide +kernel)).live
  obtain ⟨hlocal, hvalues⟩ := eval_isolates hm "set y \"b\"; set y \"c\"; z"
  obtain ⟨hglobals, -, hreached⟩ := hlocal hlive ⟨[("y", ⟨3, 0⟩)]⟩
  have hx := (hreached ⟨3, 0⟩ (.root (by decide +kernel))).2
  dsimp only
  exact ⟨hm, hlive, hout, hglobals, hx.trans rfl, hlast, hvalues _ hlast⟩

end SlotScript.Console
