import SlotScript.Proofs.Console.Mirror

/-!
# Reclamation is invisible

Two machines of the command line are configured alike, except that one releases at the end of a
statement what the statement has left behind and the other one releases nothing there. They evaluate
the same texts, in the same tables or without one. Their slots soon differ, in number, place and
generation, and yet nothing that can be seen does: `viewAfter_reclaim` says that every evaluation
ends alike, prints the same lines and leaves the same names bound to values that are written alike.

The machines start as mirrors of each other, and evaluations keep them so (`follows_eval`). Tables
that an evaluation does not use stay alike as well, because slots that are related stay related,
also when they end.
-/

namespace SlotScript.Console

open Machine
open Event (Sparing)

/-! ## What is evaluated and what is seen -/

/-- A text to evaluate, in the table with a number or without a table. -/
structure Task where
  source : String
  table : Option Nat
  deriving DecidableEq, Repr

/-- A machine and the numbered tables that texts are evaluated in. -/
structure Desk where
  machine : Machine Command
  tables : Nat → Bindings

/-- All tables are empty at first. -/
def Desk.start (config : Config) : Desk :=
  { machine := Console.machine config, tables := fun _ => .empty }

/-- Evaluates a text. Its table is then as the evaluation leaves it. -/
def Desk.eval (d : Desk) (task : Task) : Except Error (Option Slot) × Desk :=
  let ((result, ctx), machine) := d.machine.eval library task.source (task.table.map d.tables)
  (result, { machine, tables := fun k =>
    if task.table = some k then ctx.getD (d.tables k) else d.tables k })

def Desk.run (d : Desk) (tasks : List Task) : Desk :=
  tasks.foldl (fun d task => (d.eval task).2) d

/-- How a slot is written, or why it cannot be. -/
def written (m : Machine Command) (s : Slot) : Except Error String :=
  (m.render s).mapError Error.blind

/-- The names of a table in order, and how their slots are written. -/
def listing (m : Machine Command) (t : Bindings) : List (String × Except Error String) :=
  t.toList.map fun (name, s) => (name, written m s)

/-- What is seen when a text has been evaluated: how that ended, with the result as it is written,
all lines printed so far, and what the global names and the names of the tables are bound to. -/
structure View where
  outcome : Except Error (Option (Except Error String))
  lines : List String
  globals : List (String × Except Error String)
  tables : Nat → List (String × Except Error String)

def view (result : Except Error (Option Slot)) (d : Desk) : View where
  outcome := (result.map (Option.map (written d.machine))).mapError Error.blind
  lines := d.machine.lines
  globals := listing d.machine d.machine.globals
  tables k := listing d.machine (d.tables k)

def Desk.viewAfter (d : Desk) (task : Task) : View :=
  view (d.eval task).1 (d.eval task).2

/-! ## Desks that mirror each other -/

variable {R : Slot → Slot → Prop} {d₁ d₂ : Desk} {m₁ m₂ : Machine Command} {ctx₁ ctx₂ : Context}
  {s t : Slot}

/-- The machines mirror each other, and tables with the same number are alike. -/
structure Desk.Mirrors (R : Slot → Slot → Prop) (d₁ d₂ : Desk) : Prop where
  machine : Machine.Mirrors R d₁.machine d₂.machine none none
  tables : ∀ k, (d₁.tables k).Alike R (d₂.tables k)

theorem written_eq (h : Mirrors R m₁ m₂ ctx₁ ctx₂) (hst : R s t) : written m₁ s = written m₂ t := by
  unfold written
  rcases (h.render hst).cases with ⟨text, _, h₁, h₂, rfl⟩ | ⟨e, e', h₁, h₂, he⟩
  · rw [h₁, h₂]
  · rw [h₁, h₂]
    exact congrArg Except.error he

theorem listing_eq (h : Mirrors R m₁ m₂ ctx₁ ctx₂) {t₁ t₂ : Bindings} (ht : t₁.Alike R t₂) :
    listing m₁ t₁ = listing m₂ t₂ := by
  obtain ⟨entries₁⟩ := t₁
  obtain ⟨entries₂⟩ := t₂
  unfold Bindings.Alike at ht
  unfold listing
  simp only at ht ⊢
  induction ht with
  | nil => rfl
  | cons hab _ ih => rw [List.map_cons, List.map_cons, ih, hab.1, written_eq h hab.2]

/-- Desks that mirror each other look the same. -/
theorem Desk.Mirrors.view_eq (h : Desk.Mirrors R d₁ d₂)
    {result₁ result₂ : Except Error (Option Slot)}
    (hr : Matched (Option.Rel R) result₁ result₂) : view result₁ d₁ = view result₂ d₂ := by
  have houtcome : (result₁.map (Option.map (written d₁.machine))).mapError Error.blind =
      (result₂.map (Option.map (written d₂.machine))).mapError Error.blind := by
    cases hr with
    | error he => exact congrArg Except.error he
    | ok hr =>
      cases hr with
      | none => rfl
      | some hst => exact congrArg (Except.ok ∘ some) (written_eq h.machine hst)
  have htables : (fun k => listing d₁.machine (d₁.tables k)) =
      fun k => listing d₂.machine (d₂.tables k) :=
    funext fun k => listing_eq h.machine (h.tables k)
  simp only [view, View.mk.injEq]
  exact ⟨houtcome, h.machine.lines, listing_eq h.machine h.machine.globals, htables⟩

/-- An evaluation in the same table keeps all tables alike. -/
theorem Desk.Mirrors.eval (h : Desk.Mirrors R d₁ d₂) (task : Task)
    (hlast₁ : d₁.machine.store.Lasts (d₁.eval task).2.machine.store)
    (hlast₂ : d₂.machine.store.Lasts (d₂.eval task).2.machine.store) :
    ∃ R', Desk.Mirrors R' (d₁.eval task).2 (d₂.eval task).2 ∧
      Matched (Option.Rel R') (d₁.eval task).1 (d₂.eval task).1 := by
  have hctx : Option.Rel (Bindings.Alike R) (task.table.map d₁.tables)
      (task.table.map d₂.tables) := by
    cases task.table with
    | none => exact .none
    | some k => exact .some (h.tables k)
  obtain ⟨R', hsub, hmirrors, hmatched⟩ :=
    follows_eval { h.machine with ctx := hctx } task.source hlast₁ hlast₂
  have hold : ∀ k, (d₁.tables k).Alike R' (d₂.tables k) := fun k =>
    (h.tables k).imp fun s _ t _ => hsub s t
  refine ⟨R', ⟨{ hmirrors with ctx := .none }, fun k => ?_⟩, hmatched⟩
  -- The table of the text is what the evaluation left; the others have not changed.
  have hleft := hmirrors.ctx
  unfold Desk.eval
  simp only
  split
  · revert hleft
    generalize (d₁.machine.eval library task.source _).1.2 = left₁
    generalize (d₂.machine.eval library task.source _).1.2 = left₂
    rintro (ht | _)
    · exact ht
    · exact hold k
  · exact hold k

theorem Desk.exists_run_eval (d : Desk) (hd : d.machine.store.WF) (task : Task) :
    ∃ es, Run d.machine es (d.eval task).2.machine :=
  Machine.exists_run_eval library hd task.source _

theorem Desk.exists_run_run (d : Desk) (hd : d.machine.store.WF) (tasks : List Task) :
    ∃ es, Run d.machine es (d.run tasks).machine := by
  induction tasks generalizing d with
  | nil => exact ⟨[], .refl _⟩
  | cons task tasks ih =>
    obtain ⟨es, hrun⟩ := d.exists_run_eval hd task
    obtain ⟨es', hrun'⟩ := ih (d.eval task).2 (hrun.wf hd)
    exact ⟨_, hrun.trans hrun'⟩

/-- The store lasts through the first text, and then through the others. -/
theorem Desk.lasts_cons {d : Desk} {task : Task} {tasks : List Task}
    (hlast : d.machine.store.Lasts (d.run (task :: tasks)).machine.store) :
    d.machine.store.Lasts (d.eval task).2.machine.store ∧
      (d.eval task).2.machine.store.Lasts ((d.eval task).2.run tasks).machine.store := by
  have hd := hlast.refl_left.wf
  obtain ⟨es, hrun⟩ := d.exists_run_eval hd task
  obtain ⟨es', hrun'⟩ := (d.eval task).2.exists_run_run (hrun.wf hd) tasks
  exact hlast.split hrun.changes hrun'.changes

theorem Desk.Mirrors.run (h : Desk.Mirrors R d₁ d₂) (tasks : List Task)
    (hlast₁ : d₁.machine.store.Lasts (d₁.run tasks).machine.store)
    (hlast₂ : d₂.machine.store.Lasts (d₂.run tasks).machine.store) :
    ∃ R', Desk.Mirrors R' (d₁.run tasks) (d₂.run tasks) := by
  induction tasks generalizing R d₁ d₂ with
  | nil => exact ⟨R, h⟩
  | cons task tasks ih =>
    obtain ⟨hfirst₁, hrest₁⟩ := Desk.lasts_cons hlast₁
    obtain ⟨hfirst₂, hrest₂⟩ := Desk.lasts_cons hlast₂
    obtain ⟨R', hmid, -⟩ := h.eval task hfirst₁ hfirst₂
    exact ih hmid hrest₁ hrest₂

/-- The slots that a new machine has the builtins in. -/
def firstSlots : List Slot :=
  [⟨0, 0⟩, ⟨1, 0⟩, ⟨2, 0⟩]

theorem get?_machine (config : Config) (hs : s ∈ firstSlots) :
    ∃ c : Command, (machine config).store.get? s = some (.builtin c.name c) := by
  simp only [firstSlots, List.mem_cons, List.not_mem_nil, or_false] at hs
  rcases hs with rfl | rfl | rfl
  · exact ⟨.print, rfl⟩
  · exact ⟨.add, rfl⟩
  · exact ⟨.set, rfl⟩

/-- Desks start alike, whether or not statements release anything. -/
theorem Desk.mirrors_start (config : Config) (reclaim₁ reclaim₂ : Bool) :
    Desk.Mirrors (fun s t => s = t ∧ s ∈ firstSlots)
      (.start { config with reclaimTemporaries := reclaim₁ })
      (.start { config with reclaimTemporaries := reclaim₂ }) := by
  have hstore : (Console.machine { config with reclaimTemporaries := reclaim₁ }).store.Mirrors
      (fun s t => s = t ∧ s ∈ firstSlots)
      (Console.machine { config with reclaimTemporaries := reclaim₂ }).store := by
    refine ⟨⟨(arises_console _).wf, (arises_console _).wf⟩, ?_, ?_, ?_, ?_⟩
    · rintro s _ ⟨rfl, hs⟩
      obtain ⟨c, hc⟩ := get?_machine config hs
      exact ⟨Store.issued_of_get? hc, Store.issued_of_get? hc⟩
    · rintro s _ ⟨rfl, hs⟩
      obtain ⟨c, hc⟩ := get?_machine config hs
      show Option.Rel _ ((Console.machine config).store.get? s)
        ((Console.machine config).store.get? s)
      rw [hc]
      exact .some (.leaf nofun)
    · rintro s _ _ ⟨rfl, -⟩ ⟨rfl, -⟩ -
      rfl
    · rintro _ _ t ⟨rfl, -⟩ ⟨rfl, -⟩ -
      rfl
  have hglobals : (Console.machine config).globals.Alike (fun s t => s = t ∧ s ∈ firstSlots)
      (Console.machine config).globals :=
    List.forall₂_same.2 fun entry hentry => ⟨rfl, rfl, List.mem_map_of_mem hentry⟩
  exact ⟨⟨hstore, hglobals, .none, ⟨nofun, nofun⟩, rfl, rfl, rfl⟩, fun k => .nil⟩

theorem Desk.exists_run_start (config : Config) (tasks : List Task) (task : Task) :
    ∃ es, Run (.fresh config) es (((Desk.start config).run tasks).eval task).2.machine := by
  have hwf := (arises_console config).wf
  obtain ⟨es, hrun⟩ := (Desk.start config).exists_run_run hwf tasks
  obtain ⟨es', hrun'⟩ := ((Desk.start config).run tasks).exists_run_eval (hrun.wf hwf) task
  exact ⟨_, ((run_machine config).trans hrun).trans hrun'⟩

/-- If no place has come round at the end, then none had when the last text came. -/
theorem Desk.lasts_start {config : Config} {tasks : List Task} {task : Task} {es : List Event}
    (hrun : Run (.fresh config) es (((Desk.start config).run tasks).eval task).2.machine)
    (hes : Sparing es) :
    (Console.machine config).store.Lasts ((Desk.start config).run tasks).machine.store ∧
      ((Desk.start config).run tasks).machine.store.Lasts
        (((Desk.start config).run tasks).eval task).2.machine.store := by
  have hwf := (arises_console config).wf
  obtain ⟨es₁, hrun₁⟩ := (Desk.start config).exists_run_run hwf tasks
  obtain ⟨es₂, hrun₂⟩ := ((Desk.start config).run tasks).exists_run_eval (hrun₁.wf hwf) task
  have hlast : (Machine.fresh config : Machine Command).store.Lasts
      (((Desk.start config).run tasks).eval task).2.machine.store :=
    ⟨[], es, .empty, hrun.changes, hes⟩
  obtain ⟨-, hlast⟩ := hlast.split (run_machine config).changes (hrun₁.trans hrun₂).changes
  exact hlast.split hrun₁.changes hrun₂.changes

/-- Nothing that can be seen tells whether statements release what they leave behind: every
evaluation ends alike and prints the same lines, and afterwards the same names are bound to values
that are written alike. -/
theorem viewAfter_reclaim (config : Config) (tasks : List Task) (task : Task) :
    let on := { config with reclaimTemporaries := true }
    let off := { config with reclaimTemporaries := false }
    let d₁ := (Desk.start on).run tasks
    let d₂ := (Desk.start off).run tasks
    (∃ es, Run (.fresh on) es (d₁.eval task).2.machine) ∧
    (∃ es, Run (.fresh off) es (d₂.eval task).2.machine) ∧
    ∀ es₁ es₂, Run (.fresh on) es₁ (d₁.eval task).2.machine → Sparing es₁ →
      Run (.fresh off) es₂ (d₂.eval task).2.machine → Sparing es₂ →
        d₁.viewAfter task = d₂.viewAfter task := by
  intro on off d₁ d₂
  refine ⟨Desk.exists_run_start on tasks task, Desk.exists_run_start off tasks task, ?_⟩
  intro es₁ es₂ hrun₁ hes₁ hrun₂ hes₂
  obtain ⟨hpast₁, hlast₁⟩ := Desk.lasts_start hrun₁ hes₁
  obtain ⟨hpast₂, hlast₂⟩ := Desk.lasts_start hrun₂ hes₂
  obtain ⟨R, hbefore⟩ := (Desk.mirrors_start config true false).run tasks hpast₁ hpast₂
  obtain ⟨R', hafter, hresult⟩ := hbefore.eval task hlast₁ hlast₂
  exact hafter.view_eq hresult

/-- A stale handle is reported on both sides. It names different slots, because only one side has
released what the text before it left behind. -/
theorem viewAfter_reclaim_stale :
    (((Desk.start {}).run [⟨"print 'q'; set x 'a'", some 0⟩]).eval
        ⟨"print x (set x 'b')", some 0⟩).1 = .error (.invalidHandle ⟨5, 0⟩) ∧
      (((Desk.start { reclaimTemporaries := false }).run [⟨"print 'q'; set x 'a'", some 0⟩]).eval
        ⟨"print x (set x 'b')", some 0⟩).1 = .error (.invalidHandle ⟨7, 0⟩) ∧
      ((Desk.start {}).run [⟨"print 'q'; set x 'a'", some 0⟩]).viewAfter
          ⟨"print x (set x 'b')", some 0⟩ =
        ((Desk.start { reclaimTemporaries := false }).run
          [⟨"print 'q'; set x 'a'", some 0⟩]).viewAfter ⟨"print x (set x 'b')", some 0⟩ := by
  have hreleased₁ : (((Desk.start {}).run [⟨"print 'q'; set x 'a'", some 0⟩]).eval
      ⟨"print x (set x 'b')", some 0⟩).2.machine.store.tally.released = 10 := by cbv
  have hreleased₂ : (((Desk.start { reclaimTemporaries := false }).run
      [⟨"print 'q'; set x 'a'", some 0⟩]).eval
        ⟨"print x (set x 'b')", some 0⟩).2.machine.store.tally.released = 1 := by cbv
  obtain ⟨⟨es₁, hrun₁⟩, ⟨es₂, hrun₂⟩, hview⟩ :=
    viewAfter_reclaim {} [⟨"print 'q'; set x 'a'", some 0⟩] ⟨"print x (set x 'b')", some 0⟩
  have hes₁ := hrun₁.changes.sparing (by rw [hreleased₁]; decide)
  have hes₂ := hrun₂.changes.sparing (by rw [hreleased₂]; decide)
  exact ⟨by cbv, by cbv, hview es₁ es₂ hrun₁ hes₁ hrun₂ hes₂⟩

end SlotScript.Console
