import SlotScript.Proofs.Machine.Loading
import SlotScript.Proofs.Machine.Routines
import SlotScript.Vocabulary.Console

/-!
# What the command line's builtins do

An evaluation with the command line's vocabulary does very little to a machine: it stores sums, and
it rebinds names and then releases what only the old binding reached. `Moves` says so, once and for
all: whatever is to be shown of evaluations is an induction over its constructors.

A `Moment` of an evaluation has, besides the machine and the context, the slots that the evaluation
may call its own: those of the expression and those it has stored in. What an evaluation gives, and
what it binds, is one of its own slots or one that a binding or a retained slot reaches
(`Moment.Has`).
-/

namespace SlotScript

/-! ## Rebinding a name -/

namespace Bindings

variable {t : Bindings} {name : String} {s v : Slot}

theorem mem_slots_of_find? (h : t.find? name = some s) : s ∈ t.slots := by
  obtain ⟨front, back, ht, -⟩ := lawful_map.get?_eq_some_iff.1 h
  rw [slots, lawful_map.values_eq, ht, List.map_append]
  exact List.mem_append_right _ List.mem_cons_self

theorem mem_slots_of_assign_fst (h : (t.assign name v).1 = some s) : s ∈ t.slots := by
  rw [assign_fst] at h
  exact mem_slots_of_find? h

theorem mem_slots_of_mem_assign (h : s ∈ (t.assign name v).2.slots) : s ∈ t.slots ∨ s = v := by
  rw [slots, lawful_map.values_eq] at h ⊢
  rcases lawful_map.entries_assign t name v with ⟨front, old, back, ht, -, hafter⟩ | ⟨-, hafter⟩
  · rw [show map.entries (t.assign name v).2 = _ from hafter] at h
    rw [ht]
    simp only [List.map_append, List.map_cons, List.mem_append, List.mem_cons] at h ⊢
    rcases h with h | rfl | h
    · exact .inl (.inl h)
    · exact .inr rfl
    · exact .inl (.inr (.inr h))
  · rw [show map.entries (t.assign name v).2 = _ from hafter] at h
    simpa using h

theorem mem_assign_of_mem_slots (h : s ∈ t.slots) :
    s ∈ (t.assign name v).2.slots ∨ (t.assign name v).1 = some s := by
  rw [assign_fst]
  rw [slots, lawful_map.values_eq] at h ⊢
  rcases lawful_map.entries_assign t name v with
    ⟨front, old, back, ht, hfront, hafter⟩ | ⟨-, hafter⟩
  · rw [show map.entries (t.assign name v).2 = _ from hafter]
    have hold : t.find? name = some old := lawful_map.get?_eq_some_iff.2 ⟨front, back, ht, hfront⟩
    rw [ht] at h
    simp only [List.map_append, List.map_cons, List.mem_append, List.mem_cons] at h ⊢
    rcases h with h | rfl | h
    · exact .inl (.inl h)
    · exact .inr hold
    · exact .inl (.inr (.inr h))
  · rw [show map.entries (t.assign name v).2 = _ from hafter, List.map_append]
    exact .inl (List.mem_append_left _ h)

theorem mem_assign_self : v ∈ (t.assign name v).2.slots := by
  rw [slots, lawful_map.values_eq]
  rcases lawful_map.entries_assign t name v with ⟨front, old, back, -, -, hafter⟩ | ⟨-, hafter⟩
  · rw [show map.entries (t.assign name v).2 = _ from hafter]
    simp
  · rw [show map.entries (t.assign name v).2 = _ from hafter]
    simp

end Bindings

namespace Console

open Machine Routine

variable {β : Type}

/-- A moment of an evaluation. -/
structure Moment (β : Type) where
  machine : Machine β
  ctx : Context
  /-- The slots of the expression and those that the evaluation has stored in. -/
  own : Slot → Prop

namespace Moment

/-- The bound and the retained slots. -/
def roots (a : Moment β) : List Slot :=
  a.machine.roots a.ctx

/-- The slots that an evaluation can get at. -/
def Has (a : Moment β) (s : Slot) : Prop :=
  a.own s ∨ a.machine.store.Reaches a.roots s

/-- The store is well formed, and the items of an own list are own slots. -/
structure Sound (a : Moment β) : Prop where
  wf : a.machine.store.WF
  closed : ∀ s, a.own s → ∀ t ∈ a.machine.store.items s, a.own t

theorem has_root {a : Moment β} {s : Slot} (h : s ∈ a.roots) : a.Has s :=
  .inr (.root h)

end Moment

/-- One name is bound to `v` and no longer to the slots `previous`, of which there is at most
one. -/
structure Rebinds (m : Machine β) (ctx : Context) (v : Slot) (previous : List Slot)
    (m' : Machine β) (ctx' : Context) : Prop where
  store : m'.store = m.store
  retained : m'.retained = m.retained
  mem_roots : ∀ s ∈ m'.roots ctx', s ∈ m.roots ctx ∨ s = v
  mem_roots' : ∀ s ∈ m.roots ctx, s ∈ m'.roots ctx' ∨ s ∈ previous
  previous_mem : ∀ s ∈ previous, s ∈ m.roots ctx
  bound : v ∈ m'.roots ctx'

/-- What an evaluation can do to a machine, with the events of its store. -/
inductive Moves : Moment β → List Event → Moment β → Prop
  | refl (a : Moment β) : Moves a [] a
  | trans {a b c : Moment β} {es es' : List Event} (h : Moves a es b) (h' : Moves b es' c) :
      Moves a (es ++ es') c
  /-- Neither the store nor a binding changes, nor is a slot retained or let go. -/
  | aside {a : Moment β} {m : Machine β} (hs : m.store = a.machine.store)
      (hg : m.globals = a.machine.globals) (hr : m.retained = a.machine.retained) :
      Moves a [] { a with machine := m }
  /-- A number is stored in the next slot. -/
  | give (a : Moment β) (x : Float) :
      Moves a [.stored a.machine.store.nextSlot]
        ⟨(a.machine.allocate (.number x)).2, a.ctx,
          fun s => s = a.machine.store.nextSlot ∨ a.own s⟩
  /-- A name is bound, and what only its old binding reached is released. -/
  | bind {a : Moment β} {m m' : Machine β} {ctx : Context} {v : Slot} {previous rs : List Slot}
      (hv : a.Has v) (hb : Rebinds a.machine a.ctx v previous m ctx) (hrel : Releases m rs m')
      (hrs : ∀ t, t ∈ rs ↔ m.store.isLive t = true ∧ m.store.Reaches previous t ∧
        ¬ m.store.Reaches (m.roots ctx) t) :
      Moves a (rs.map .released) ⟨m', ctx, a.own⟩

namespace Moves

variable {a b : Moment β} {es : List Event}

theorem own (h : Moves a es b) {s : Slot} (hs : a.own s) : b.own s := by
  induction h with
  | refl a => exact hs
  | trans _ _ ih ih' => exact ih' (ih hs)
  | aside _ _ _ => exact hs
  | give a x => exact .inr hs
  | bind _ _ _ _ => exact hs

theorem changes (h : Moves a es b) : a.machine.store.Changes es b.machine.store := by
  induction h with
  | refl a => exact .refl _
  | trans _ _ ih ih' => exact ih.trans ih'
  | aside hs _ _ => rw [hs]; exact .refl _
  | give a x => exact .store _ _
  | bind _ hb hrel _ => rw [← hb.store]; exact hrel.changes fun _ => rfl

theorem journal (h : Moves a es b) : a.machine.store.WritesOn es b.machine.store := by
  induction h with
  | refl a => exact .same rfl
  | trans _ _ ih ih' => exact ih.trans ih'
  | aside hs _ _ => exact .same (by rw [hs])
  | give a x => exact .allocate _ _
  | bind _ hb hrel _ => exact .same (by rw [hrel.journal.1, hb.store])

/-- A number that is stored has no items, so no slot has others than before. -/
theorem items_give (hm : a.machine.store.WF) (x : Float) (s : Slot) :
    (a.machine.allocate (.number x)).2.store.items s = a.machine.store.items s := by
  have hget := Stores.get?_allocate (v := .number x) (t := s) hm
  by_cases hs : s = a.machine.store.nextSlot
  · rw [if_pos hs] at hget
    rw [Store.items_of_get? hget, hs, Store.items_eq_nil_of_get?_eq_none hm.get?_nextSlot]
    rfl
  · rw [if_neg hs] at hget
    exact Store.items_congr hget

theorem sound (h : Moves a es b) (ha : a.Sound) : b.Sound := by
  refine ⟨h.changes.wf ha.wf, ?_⟩
  induction h with
  | refl a => exact ha.closed
  | trans h _ ih ih' =>
    have hb := ih ha
    exact ih' ⟨h.changes.wf ha.wf, hb⟩
  | aside hs _ _ => rw [hs]; exact ha.closed
  | give a x =>
    intro s hs t ht
    rw [items_give ha.wf] at ht
    rcases hs with rfl | hs
    · rw [Store.items_eq_nil_of_get?_eq_none ha.wf.get?_nextSlot] at ht
      cases ht
    · exact .inr (ha.closed s hs t ht)
  | bind _ hb hrel _ =>
    intro s hs t ht
    have ht := hrel.items_subset ht
    rw [hb.store] at ht
    exact ha.closed s hs t ht

end Moves

/-! ## Routines -/

/-- A step that begins at `a` and ends with `out` moves, and what it gives satisfies `post`. -/
def Leads {α : Type} (a : Moment β) (out : Outcome α × Machine β)
    (post : α → Moment β → Prop) : Prop :=
  ∃ es own, Moves a es ⟨out.2, out.1.2, own⟩ ∧
    ∀ x, out.1.1 = .ok x → post x ⟨out.2, out.1.2, own⟩

/-- An evaluator gives own or reached slots when the expression has own slots. -/
def Behaves (call : Evaluator β) : Prop :=
  ∀ (a : Moment β) (expr : List Slot), a.Sound → (∀ s ∈ expr, a.own s) →
    Leads a (call expr a.ctx a.machine) fun result b => ∀ s ∈ result, b.Has s

variable {α γ : Type} {a : Moment β} {call : Evaluator β} {post : α → Moment β → Prop}
  {post' : γ → Moment β → Prop}

theorem Leads.still (r : Except Error α) (h : ∀ x, r = .ok x → post x a) :
    Leads a ((r, a.ctx), a.machine) post :=
  ⟨[], a.own, .refl a, h⟩

theorem Leads.mono {out : Outcome α × Machine β} {post'' : α → Moment β → Prop}
    (h : Leads a out post) (hp : ∀ x b, post x b → post'' x b) : Leads a out post'' := by
  obtain ⟨es, own, hm, hpost⟩ := h
  exact ⟨es, own, hm, fun x hx => hp x _ (hpost x hx)⟩

theorem Leads.next {out : Outcome α × Machine β}
    {f : α → Context → Machine β → Outcome γ × Machine β} (h : Leads a out post)
    (hf : ∀ x b es, Moves a es b → post x b → Leads b (f x b.ctx b.machine) post') :
    Leads a (Machine.next out f) post' := by
  obtain ⟨es, own, hm, hpost⟩ := h
  obtain ⟨⟨result, ctx⟩, m⟩ := out
  cases result with
  | error e => exact ⟨es, own, hm, fun x hx => by cases hx⟩
  | ok x =>
    obtain ⟨es', own', hm', hpost'⟩ := hf x _ es hm (hpost x rfl)
    exact ⟨es ++ es', own', hm.trans hm', hpost'⟩

theorem mem_roots_of_resolve {name : String} {s : Slot}
    (h : a.machine.resolve a.ctx name = .ok s) : s ∈ a.roots := by
  unfold Machine.resolve Context.resolve? at h
  split at h
  · next r hr =>
    obtain rfl := Except.ok.inj h
    rw [Moment.roots, mem_roots_iff]
    rcases Option.or_eq_some_iff.1 hr with hlocal | ⟨-, hglobal⟩
    · obtain ⟨t, ht, hfind⟩ := Option.bind_eq_some_iff.1 hlocal
      rw [ht]
      exact .inr (.inr (Bindings.mem_slots_of_find? hfind))
    · exact .inl (Bindings.mem_slots_of_find? hglobal)
  · cases h

theorem leads_argumentBy (hc : Behaves call) (ha : a.Sound) {s : Slot} (hs : a.own s) :
    Leads a (argumentBy call s a.ctx a.machine) fun r b => b.Has r := by
  unfold argumentBy
  split
  · exact .still _ fun x hx => by cases hx
  · exact .still _ fun x hx => Moment.has_root (mem_roots_of_resolve hx)
  · next items hv =>
    have hitems : a.machine.store.items s = items := Store.items_of_get? (value_eq_ok_iff.1 hv)
    have h := hc a items ha fun t ht => ha.closed s hs t (hitems ▸ ht)
    obtain ⟨es, own, hm, hpost⟩ := h
    split
    · next heq =>
      rw [heq] at hm
      exact ⟨es, own, hm, fun x hx => by cases hx⟩
    · next heq =>
      rw [heq] at hm
      exact ⟨es, own, hm, fun x hx => by cases hx⟩
    · next r ctx m heq =>
      rw [heq] at hm hpost
      refine ⟨es, own, hm, ?_⟩
      intro x hx
      cases hx
      exact hpost (some r) rfl r rfl
  · exact .still _ fun x hx => by cases hx; exact .inl hs

theorem leads_argument (hc : Behaves call) (ha : a.Sound) {s : Slot} (hs : a.own s) :
    Leads a (exec call (argument s) a.ctx a.machine) fun r b => b.Has r := by
  rw [exec_argument]
  exact leads_argumentBy hc ha hs

/-- Steps that each move do so in turn. -/
theorem leads_forEachFrom {f : α → Routine β γ} (members : List α) (done : List γ)
    (hf : ∀ x ∈ members, ∀ b es, Moves a es b →
      Leads b (exec call (f x) b.ctx b.machine) fun _ _ => True) :
    Leads a (exec call (forEachFrom f done members) a.ctx a.machine) fun _ _ => True := by
  induction members generalizing a done with
  | nil => exact .still _ fun _ _ => trivial
  | cons x members ih =>
    rw [forEachFrom, exec_bind]
    refine (hf x List.mem_cons_self a [] (.refl a)).next fun c b es hm _ => ?_
    refine ih (c :: done) fun y hy b' es' hm' => ?_
    exact hf y (List.mem_cons_of_mem _ hy) b' _ (hm.trans hm')

theorem leads_value_bind {s : Slot} {f : Value β → Routine β γ}
    (hf : ∀ v, Leads a (exec call (f v) a.ctx a.machine) post') :
    Leads a (exec call (value s >>= f) a.ctx a.machine) post' := by
  have hvalue : Leads a ((a.machine.value s, a.ctx), a.machine) fun _ b => b = a :=
    .still _ fun _ _ => rfl
  rw [exec_bind, exec_value]
  refine hvalue.next fun v b es _ hb => ?_
  rw [hb]
  exact hf v

theorem leads_print (hc : Behaves call) (ha : a.Sound) {args : List Slot}
    (hargs : ∀ s ∈ args, a.own s) :
    Leads a (exec call (print args) a.ctx a.machine) fun result b => ∀ s ∈ result, b.Has s := by
  unfold print
  rw [exec_bind]
  have harguments : Leads a (exec call (arguments args) a.ctx a.machine) fun _ _ => True := by
    refine leads_forEachFrom args [] fun s hs b es hm => ?_
    exact (leads_argument hc (hm.sound ha) (hm.own (hargs s hs))).mono fun _ _ _ => trivial
  refine harguments.next fun slots b es hm _ => ?_
  rw [exec_bind]
  -- Showing slots asks for their values and texts only.
  have hshown : Leads b (exec call (forEach shown slots) b.ctx b.machine) fun _ _ => True := by
    refine leads_forEachFrom slots [] fun s _ b' _ _ => leads_value_bind fun v => ?_
    split
    · exact .still _ fun _ _ => trivial
    · rw [exec_render]
      exact .still _ fun _ _ => trivial
  refine hshown.next fun words b' es' hm' _ => ?_
  rw [exec_bind, exec_ask]
  refine ⟨[], b'.own, .aside rfl rfl rfl, ?_⟩
  intro x hx s hs
  cases hx
  cases hs

theorem leads_numberArg (hc : Behaves call) (ha : a.Sound) {s : Slot} (hs : a.own s) :
    Leads a (exec call (numberArg s) a.ctx a.machine) fun _ _ => True := by
  unfold numberArg
  rw [exec_bind]
  refine (leads_argument hc ha hs).next fun r b es hm _ => leads_value_bind fun v => ?_
  rw [exec_expect]
  exact .still _ fun _ _ => trivial

theorem leads_sumArgs (hc : Behaves call) (ha : a.Sound) {args : List Slot} (total : Float)
    (hargs : ∀ s ∈ args, a.own s) :
    Leads a (exec call (sumArgs total args) a.ctx a.machine) fun _ _ => True := by
  induction args generalizing a total with
  | nil => exact .still _ fun _ _ => trivial
  | cons s args ih =>
    rw [sumArgs, exec_bind]
    refine (leads_numberArg hc ha (hargs s List.mem_cons_self)).next fun x b es hm _ => ?_
    exact ih (hm.sound ha) _ fun t ht => hm.own (hargs t (List.mem_cons_of_mem _ ht))

theorem leads_add (hc : Behaves call) (ha : a.Sound) {args : List Slot}
    (hargs : ∀ s ∈ args, a.own s) :
    Leads a (exec call (add args) a.ctx a.machine) fun result b => ∀ s ∈ result, b.Has s := by
  unfold add atLeast
  rw [exec_bind]
  split
  · have hunit : Leads a ((.ok (), a.ctx), a.machine) fun (_ : Unit) b => b = a :=
      .still _ fun _ _ => rfl
    refine hunit.next fun _ b es _ hb => ?_
    subst hb
    rw [exec_bind]
    refine (leads_sumArgs hc ha 0 hargs).next fun x b' es' _ _ => ?_
    rw [exec_give]
    refine ⟨_, _, .give b' x, ?_⟩
    intro result hresult s hs
    cases hresult
    cases hs
    exact .inl (.inl rfl)
  · exact .still _ fun x hx => by cases hx

/-! ## Binding -/

theorem exec_assign {name : String} {v : Slot} {ctx : Context} {m : Machine β} :
    exec call (assign name v) ctx m =
      match ctx with
      | some t => ((.ok (t.assign name v).1, some (t.assign name v).2), m)
      | none => ((.ok (m.assignGlobal name v).1, none), (m.assignGlobal name v).2) := by
  cases ctx with
  | none => rfl
  | some t => rfl

theorem rebinds_local {m : Machine β} {t : Bindings} {name : String} {v : Slot} :
    Rebinds m (some t) v (t.assign name v).1.toList m (some (t.assign name v).2) := by
  refine ⟨rfl, rfl, ?_, ?_, ?_, ?_⟩
  · intro s hs
    rcases List.mem_append.1 hs with hs | hs
    · exact .inl (List.mem_append_left _ hs)
    · exact (Bindings.mem_slots_of_mem_assign hs).imp (List.mem_append_right _) id
  · intro s hs
    rcases List.mem_append.1 hs with hs | hs
    · exact .inl (List.mem_append_left _ hs)
    · exact (Bindings.mem_assign_of_mem_slots hs).imp (List.mem_append_right _) Option.mem_toList.2
  · intro s hs
    exact mem_roots_iff.2 (.inr (.inr (Bindings.mem_slots_of_assign_fst (Option.mem_toList.1 hs))))
  · exact mem_roots_iff.2 (.inr (.inr Bindings.mem_assign_self))

theorem rebinds_global {m : Machine β} {name : String} {v : Slot} :
    Rebinds m none v (m.assignGlobal name v).1.toList (m.assignGlobal name v).2 none := by
  refine ⟨rfl, rfl, ?_, ?_, ?_, ?_⟩
  · intro s hs
    rcases mem_roots_iff.1 hs with hs | hs
    · exact (Bindings.mem_slots_of_mem_assign hs).imp (fun h => mem_roots_iff.2 (.inl h)) id
    · exact .inl (mem_roots_iff.2 (.inr hs))
  · intro s hs
    rcases mem_roots_iff.1 hs with hs | hs
    · exact (Bindings.mem_assign_of_mem_slots hs).imp (fun h => mem_roots_iff.2 (.inl h))
        Option.mem_toList.2
    · exact .inl (mem_roots_iff.2 (.inr hs))
  · intro s hs
    exact mem_roots_iff.2 (.inl (Bindings.mem_slots_of_assign_fst (Option.mem_toList.1 hs)))
  · exact mem_roots_iff.2 (.inl Bindings.mem_assign_self)

/-- Binding a name and releasing what only its old binding reached is one move. -/
theorem leads_release {m : Machine β} {ctx : Context} {v : Slot} {previous : Option Slot}
    (hv : a.Has v) (hb : Rebinds a.machine a.ctx v previous.toList m ctx) :
    Leads a (exec call (do
        if let some p := previous then
          Routine.ask (.releaseUnreachable p (← context))
        pure (some v)) ctx m) fun result b => ∀ s ∈ result, b.Has s := by
  cases previous with
  | none =>
    refine ⟨_, _, .bind hv hb (.nil m) fun t => ?_, ?_⟩
    · exact ⟨fun h => absurd h List.not_mem_nil, fun h => h.2.1.not_nil.elim⟩
    · intro result hresult s hs
      cases hresult
      cases hs
      exact Moment.has_root hb.bound
  | some p =>
    obtain ⟨rs, hrel, hrs⟩ := exists_releases_releaseAllUnreachable m ctx [p]
    have hroots := hrel.roots ctx fun r hr => ((hrs r).1 hr).2.2
    refine ⟨_, _, .bind hv hb hrel hrs, ?_⟩
    intro result hresult s hs
    cases hresult
    cases hs
    refine Moment.has_root ?_
    have hbound := hb.bound
    rw [← hroots] at hbound
    exact hbound

theorem leads_set (hc : Behaves call) (ha : a.Sound) {args : List Slot}
    (hargs : ∀ s ∈ args, a.own s) :
    Leads a (exec call (set args) a.ctx a.machine) fun result b => ∀ s ∈ result, b.Has s := by
  unfold set
  split
  · next target source =>
    rw [exec_bind]
    have hname : Leads a (exec call (symbolName target) a.ctx a.machine) fun _ b => b = a := by
      refine leads_value_bind fun v => ?_
      rw [exec_expect]
      exact .still _ fun _ _ => rfl
    refine hname.next fun name b es _ hb => ?_
    subst hb
    rw [exec_bind]
    refine (leads_argument hc ha (hargs source (by simp))).next fun v b' es' _ hv => ?_
    rw [exec_bind, exec_assign]
    obtain ⟨m, ctx, own⟩ := b'
    cases ctx with
    | none => exact leads_release hv rebinds_global
    | some t => exact leads_release hv rebinds_local
  · exact .still _ fun x hx => by cases hx

/-! ## Evaluations -/

theorem leads_routine (hc : Behaves call) (ha : a.Sound) (c : Command) {args : List Slot}
    (hargs : ∀ s ∈ args, a.own s) :
    Leads a (exec call (routine c args) a.ctx a.machine) fun result b => ∀ s ∈ result, b.Has s := by
  cases c with
  | print => exact leads_print hc ha hargs
  | add => exact leads_add hc ha hargs
  | set => exact leads_set hc ha hargs

theorem has_operator {head s : Slot} (hhead : a.own head)
    (h : a.machine.operator a.ctx head = .ok s) : a.Has s := by
  unfold operator at h
  split at h
  · cases h
  · exact Moment.has_root (mem_roots_of_resolve h)
  · cases h
    exact .inl hhead

theorem leads_apply {a : Moment Command} {call : Evaluator Command} (hc : Behaves call)
    (ha : a.Sound) {head : Slot} {args : List Slot} (hexpr : ∀ s ∈ head :: args, a.own s) :
    Leads a (apply library call head args a.ctx a.machine)
      fun result b => ∀ s ∈ result, b.Has s := by
  unfold apply
  split
  · exact .still _ fun x hx => by cases hx
  · next s hs =>
    split
    · exact .still _ fun x hx => by cases hx
    · exact leads_routine hc ha _ fun t ht => hexpr t (List.mem_cons_of_mem _ ht)
    · refine .still _ fun x hx t ht => ?_
      cases hx
      cases ht
      exact has_operator (hexpr head List.mem_cons_self) hs

/-- Every evaluation with the command line's vocabulary moves. -/
theorem behaves_evaluateAt (room : Nat) : Behaves (evaluateAt library room) := by
  induction room with
  | zero =>
    intro a expr _ _
    cases expr with
    | nil => exact .still _ fun x hx s hs => by cases hx; cases hs
    | cons head args => exact .still _ fun x hx => by cases hx
  | succ room ih =>
    intro a expr ha hexpr
    cases expr with
    | nil => exact .still _ fun x hx s hs => by cases hx; cases hs
    | cons head args =>
      -- Going a level deeper and coming back changes the depth only.
      let a' : Moment Command :=
        { a with machine := { a.machine with depth := a.machine.depth + 1 } }
      have hin : Moves a [] a' := .aside rfl rfl rfl
      obtain ⟨es, own, hm, hpost⟩ := leads_apply ih (hin.sound ha) hexpr
      exact ⟨_, own, (hin.trans hm).trans (.aside rfl rfl rfl), hpost⟩

theorem behaves_evaluate : Behaves (evaluate library) :=
  fun a => behaves_evaluateAt _ a

end Console

end SlotScript
