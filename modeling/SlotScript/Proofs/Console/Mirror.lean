import SlotScript.Proofs.Console.Sessions
import SlotScript.Proofs.Machine.Mirror

/-!
# Evaluations on machines that mirror each other

Machines that mirror each other evaluate alike: the builtins of the command line look at slots only
through the values in them, so they do on both sides the same thing to related slots. Two steps go
along with each other (`Follows`) if they end with machines that mirror each other along more slots
than before, and with related results or the same failure.

The rules for the parts of routines lead to the builtins and by induction on the levels that are
left to all evaluations (`blind_evaluate`). The end of a statement is where the two machines may
differ: one may release what the other keeps (`Agree.close`). What it releases is new and nothing
that is kept reaches it, so the slots that were related before stay related.
-/

namespace SlotScript.Console

open Machine Routine

variable {β α γ : Type} {call : Evaluator β} {R : Slot → Slot → Prop}
  {m₁ m₂ n₁ n₂ : Machine β} {ctx₁ ctx₂ : Context} {s t : Slot}

/-! ## Steps that go along with each other -/

/-- Two steps ended alike: their machines mirror each other along more slots than `R`, and their
results are related by `post` or they failed for the same cause. -/
def Agree (R : Slot → Slot → Prop) (post : (Slot → Slot → Prop) → α → α → Prop)
    (out₁ out₂ : Outcome α × Machine β) : Prop :=
  ∃ R', (∀ s t, R s t → R' s t) ∧ Mirrors R' out₁.2 out₂.2 out₁.1.2 out₂.1.2 ∧
    Matched (post R') out₁.1.1 out₂.1.1

/-- Two steps end alike if no place has come round by then. -/
def Follows (R : Slot → Slot → Prop) (m₁ m₂ : Machine β) (out₁ out₂ : Outcome α × Machine β)
    (post : (Slot → Slot → Prop) → α → α → Prop) : Prop :=
  m₁.store.Lasts out₁.2.store → m₂.store.Lasts out₂.2.store → Agree R post out₁ out₂

/-- An evaluator that does the same with related slots. -/
def Blind (call : Evaluator β) : Prop :=
  ∀ {R : Slot → Slot → Prop} {m₁ m₂ : Machine β} {ctx₁ ctx₂ : Context} {expr₁ expr₂ : List Slot},
    Mirrors R m₁ m₂ ctx₁ ctx₂ → List.Forall₂ R expr₁ expr₂ →
      Follows R m₁ m₂ (call expr₁ ctx₁ m₁) (call expr₂ ctx₂ m₂) Option.Rel

variable {post : (Slot → Slot → Prop) → α → α → Prop} {post' : (Slot → Slot → Prop) → γ → γ → Prop}

/-- Nothing more happens. -/
theorem Follows.still {x y : Except Error α} (h : Mirrors R n₁ n₂ ctx₁ ctx₂)
    (hxy : Matched (post R) x y) : Follows R m₁ m₂ ((x, ctx₁), n₁) ((y, ctx₂), n₂) post :=
  fun _ _ => ⟨R, fun _ _ hst => hst, h, hxy⟩

/-- A step and what happens next. -/
theorem Follows.next {out₁ out₂ : Outcome α × Machine β}
    {f₁ f₂ : α → Context → Machine β → Outcome γ × Machine β}
    (h : Follows R m₁ m₂ out₁ out₂ post)
    (hp₁ : m₁.store.WF → Proceeds m₁ out₁ f₁) (hp₂ : m₂.store.WF → Proceeds m₂ out₂ f₂)
    (hf : ∀ {R' : Slot → Slot → Prop} {x y : α}, (∀ s t, R s t → R' s t) →
      Mirrors R' out₁.2 out₂.2 out₁.1.2 out₂.1.2 → post R' x y →
        Follows R' out₁.2 out₂.2 (f₁ x out₁.1.2 out₁.2) (f₂ y out₂.1.2 out₂.2) post') :
    Follows R m₁ m₂ (Machine.next out₁ f₁) (Machine.next out₂ f₂) post' := by
  intro hlast₁ hlast₂
  have hself₁ := hlast₁.refl_left
  have hself₂ := hlast₂.refl_left
  obtain ⟨hmid₁, hrest₁⟩ := (hp₁ hself₁.wf).lasts hself₁ hlast₁
  obtain ⟨hmid₂, hrest₂⟩ := (hp₂ hself₂.wf).lasts hself₂ hlast₂
  obtain ⟨R', hsub, hmirrors, hmatched⟩ := h hmid₁ hmid₂
  obtain ⟨⟨result₁, c₁⟩, k₁⟩ := out₁
  obtain ⟨⟨result₂, c₂⟩, k₂⟩ := out₂
  cases hmatched with
  | error he => exact ⟨R', hsub, hmirrors, .error he⟩
  | ok hxy =>
    obtain ⟨R'', hsub', hend⟩ := hf hsub hmirrors hxy hrest₁ hrest₂
    exact ⟨R'', fun s t hst => hsub' s t (hsub s t hst), hend⟩

theorem Follows.bind (hc : Runs call) {r₁ r₂ : Routine β α} {f₁ f₂ : α → Routine β γ}
    (h : Follows R m₁ m₂ (exec call r₁ ctx₁ m₁) (exec call r₂ ctx₂ m₂) post)
    (hf : ∀ {R' : Slot → Slot → Prop} {n₁ n₂ : Machine β} {c₁ c₂ : Context} {x y : α},
      (∀ s t, R s t → R' s t) → Mirrors R' n₁ n₂ c₁ c₂ → post R' x y →
        Follows R' n₁ n₂ (exec call (f₁ x) c₁ n₁) (exec call (f₂ y) c₂ n₂) post') :
    Follows R m₁ m₂ (exec call (r₁ >>= f₁) ctx₁ m₁) (exec call (r₂ >>= f₂) ctx₂ m₂) post' := by
  rw [exec_bind, exec_bind]
  exact h.next (fun hm => proceeds_exec hc hm r₁ f₁ ctx₁)
    (fun hm => proceeds_exec hc hm r₂ f₂ ctx₂) hf

theorem follows_value (h : Mirrors R m₁ m₂ ctx₁ ctx₂) (hst : R s t) :
    Follows R m₁ m₂ (exec call (value s) ctx₁ m₁) (exec call (value t) ctx₂ m₂) Value.Alike := by
  rw [exec_value, exec_value]
  exact .still h (h.value hst)

theorem follows_expect {x y : Except Error α} (h : Mirrors R m₁ m₂ ctx₁ ctx₂)
    (hxy : Matched (post R) x y) :
    Follows R m₁ m₂ (exec call (expect x) ctx₁ m₁) (exec call (expect y) ctx₂ m₂) post := by
  rw [exec_expect, exec_expect]
  exact .still h hxy

theorem proceeds_call (hc : Runs call) {m : Machine β} (hm : m.store.WF) {expr : List Slot}
    {ctx : Context} {f : Option Slot → Except Error α} :
    Proceeds m (call expr ctx m) fun result ctx m => ((f result, ctx), m) := by
  obtain ⟨es, hrun⟩ := hc expr ctx m hm
  exact ⟨⟨es, hrun.changes⟩, fun _ => ⟨[], .refl _⟩⟩

/-! ## Arguments -/

/-- A result that has to be there. -/
def required : Option Slot → Except Error Slot
  | none => .error .noValue
  | some r => .ok r

theorem argumentBy_of_list {m : Machine β} {ctx : Context} {items : List Slot}
    (h : m.value s = .ok (.list items)) :
    argumentBy call s ctx m =
      next (call items ctx m) fun result ctx m => ((required result, ctx), m) := by
  unfold argumentBy
  rw [h]
  simp only
  generalize call items ctx m = out
  obtain ⟨⟨result, ctx'⟩, m'⟩ := out
  cases result with
  | error e => rfl
  | ok result => cases result <;> rfl

theorem follows_argument (hc : Runs call) (hcall : Blind call) (h : Mirrors R m₁ m₂ ctx₁ ctx₂)
    (hst : R s t) :
    Follows R m₁ m₂ (exec call (argument s) ctx₁ m₁) (exec call (argument t) ctx₂ m₂) id := by
  rw [exec_argument, exec_argument]
  rcases (h.value hst).cases with ⟨v, w, hv, hw, hvw⟩ | ⟨e, e', hv, hw, he⟩
  · cases hvw with
    | leaf hleaf =>
      unfold argumentBy
      rw [hv, hw]
      cases v with
      | symbol name => exact .still h (h.resolve name)
      | list items => exact absurd rfl hleaf
      | _ => exact .still h (.ok hst)
    | list hitems =>
      rw [argumentBy_of_list hv, argumentBy_of_list hw]
      refine (hcall h hitems).next (fun hm => proceeds_call hc hm)
        (fun hm => proceeds_call hc hm) ?_
      intro R' x y _ hmid hxy
      refine .still hmid ?_
      cases hxy with
      | some hr => exact .ok hr
      | none => exact .error rfl
  · unfold argumentBy
    rw [hv, hw]
    exact .still h (.error he)

/-- All arguments are asked for, after some that were given. -/
theorem follows_arguments (hc : Runs call) (hcall : Blind call)
    {args₁ args₂ done₁ done₂ : List Slot}
    (h : Mirrors R m₁ m₂ ctx₁ ctx₂) (hargs : List.Forall₂ R args₁ args₂)
    (hdone : List.Forall₂ R done₁ done₂) :
    Follows R m₁ m₂ (exec call (forEachFrom argument done₁ args₁) ctx₁ m₁)
      (exec call (forEachFrom argument done₂ args₂) ctx₂ m₂) List.Forall₂ := by
  -- Each argument may relate more slots, so the induction is on one list and not on `hargs`.
  induction args₁ generalizing R m₁ m₂ ctx₁ ctx₂ args₂ done₁ done₂ with
  | nil =>
    cases hargs
    exact .still h (.ok (List.rel_reverse hdone))
  | cons s args₁ ih =>
    cases hargs with
    | cons hst hargs =>
      rw [forEachFrom, forEachFrom]
      refine (follows_argument hc hcall h hst).bind hc fun hsub hmid hr => ?_
      exact ih hmid (hargs.imp hsub) (.cons hr (hdone.imp hsub))

/-- Alike values give the same to a function that does not look at the items of lists. -/
theorem matched_of_alike {v w : Value β} {f : Value β → Except Error α} (h : Value.Alike R v w)
    (hf : ∀ items items', f (.list items) = f (.list items')) : Matched Eq (f v) (f w) := by
  have hsame : ∀ x : Except Error α, Matched Eq x x := fun x => by
    cases x with
    | ok a => exact .ok rfl
    | error e => exact .error rfl
  cases h with
  | leaf _ => exact hsame (f v)
  | list _ =>
    rw [hf]
    exact hsame _

theorem follows_numberArg (hc : Runs call) (hcall : Blind call) (h : Mirrors R m₁ m₂ ctx₁ ctx₂)
    (hst : R s t) :
    Follows R m₁ m₂ (exec call (numberArg s) ctx₁ m₁) (exec call (numberArg t) ctx₂ m₂)
      fun _ => Eq := by
  unfold numberArg
  refine (follows_argument hc hcall h hst).bind hc fun _ hmid hr => ?_
  refine (follows_value hmid hr).bind hc fun _ hmid hvw => ?_
  exact follows_expect hmid (matched_of_alike hvw fun _ _ => rfl)

/-- A name is not evaluated. -/
theorem follows_symbolName (hc : Runs call) (h : Mirrors R m₁ m₂ ctx₁ ctx₂) (hst : R s t) :
    Follows R m₁ m₂ (exec call (symbolName s) ctx₁ m₁) (exec call (symbolName t) ctx₂ m₂)
      fun _ => Eq := by
  unfold symbolName
  refine (follows_value h hst).bind hc fun _ hmid hvw => ?_
  exact follows_expect hmid (matched_of_alike hvw fun _ _ => rfl)

theorem follows_sumArgs (hc : Runs call) (hcall : Blind call) {args₁ args₂ : List Slot}
    (total : Float) (h : Mirrors R m₁ m₂ ctx₁ ctx₂) (hargs : List.Forall₂ R args₁ args₂) :
    Follows R m₁ m₂ (exec call (sumArgs total args₁) ctx₁ m₁)
      (exec call (sumArgs total args₂) ctx₂ m₂) fun _ => Eq := by
  induction args₁ generalizing R m₁ m₂ ctx₁ ctx₂ args₂ total with
  | nil =>
    cases hargs
    exact .still h (.ok rfl)
  | cons s args₁ ih =>
    cases hargs with
    | cons hst hargs =>
      rw [sumArgs, sumArgs]
      refine (follows_numberArg hc hcall h hst).bind hc fun hsub hmid hxy => ?_
      subst hxy
      exact ih _ hmid (hargs.imp hsub)

/-! ## The builtins -/

theorem matched_shownText (h : Mirrors R m₁ m₂ ctx₁ ctx₂) (hst : R s t) :
    Matched Eq (shownText m₁ s) (shownText m₂ t) := by
  have hrender := h.render hst
  unfold shownText
  rcases (h.value hst).cases with ⟨v, w, hv, hw, hvw⟩ | ⟨e, e', hv, hw, he⟩
  · rw [hv, hw]
    cases hvw with
    | list _ => exact hrender
    | leaf _ =>
      cases v with
      | text t => exact .ok rfl
      | _ => exact hrender
  · rw [hv, hw]
    exact .error he

/-- The same line is printed on both sides. -/
theorem mirrors_notify (h : Mirrors R m₁ m₂ ctx₁ ctx₂) (text : String) :
    Mirrors R (m₁.notify (.line text)) (m₂.notify (.line text)) ctx₁ ctx₂ :=
  { h with lines := congrArg (text :: ·) h.lines }

theorem follows_print (hc : Runs call) (hcall : Blind call) {args₁ args₂ : List Slot}
    (h : Mirrors R m₁ m₂ ctx₁ ctx₂) (hargs : List.Forall₂ R args₁ args₂) :
    Follows R m₁ m₂ (exec call (print args₁) ctx₁ m₁) (exec call (print args₂) ctx₂ m₂)
      Option.Rel := by
  unfold print
  refine (follows_arguments hc hcall h hargs .nil).bind hc fun {R' n₁ n₂ c₁ c₂ slots₁ slots₂} _ hmid
    hslots => ?_
  have hwords := matched_collect hslots fun a c hac => matched_shownText hmid hac
  rw [exec_bind, exec_bind, forEach, forEach, exec_forEachFrom_shown, exec_forEachFrom_shown]
  rcases hwords.cases with ⟨words, _, h₁, h₂, rfl⟩ | ⟨e, e', h₁, h₂, he⟩
  · rw [h₁, h₂]
    exact .still (mirrors_notify hmid _) (.ok .none)
  · rw [h₁, h₂]
    exact .still hmid (.error he)

theorem follows_add (hc : Runs call) (hcall : Blind call) {args₁ args₂ : List Slot}
    (h : Mirrors R m₁ m₂ ctx₁ ctx₂) (hargs : List.Forall₂ R args₁ args₂) :
    Follows R m₁ m₂ (exec call (add args₁) ctx₁ m₁) (exec call (add args₂) ctx₂ m₂)
      Option.Rel := by
  unfold add atLeast
  rw [exec_bind, exec_bind, ← hargs.length_eq]
  split
  · refine (follows_sumArgs hc hcall 0 h hargs).bind hc fun {R' n₁ n₂ c₁ c₂ x y} _ hmid hxy => ?_
    subst hxy
    rw [exec_give, exec_give]
    have hstored := hmid.allocate (v := .number x) (.leaf fun hlist => by cases hlist)
    exact fun _ _ => ⟨_, fun _ _ => .inl, hstored, .ok (.some (.inr ⟨rfl, rfl⟩))⟩
  · exact .still h (.error rfl)

/-- The same name is bound to related slots. -/
theorem follows_assign (h : Mirrors R m₁ m₂ ctx₁ ctx₂) (name : String) (hst : R s t) :
    Follows R m₁ m₂ (exec call (assign name s) ctx₁ m₁) (exec call (assign name t) ctx₂ m₂)
      Option.Rel := by
  rw [exec_assign, exec_assign]
  cases h.ctx with
  | none =>
    exact .still { h with globals := h.globals.assign name hst } (.ok (h.globals.assign_fst name))
  | some ht => exact .still { h with ctx := .some (ht.assign name hst) } (.ok (ht.assign_fst name))

/-- What the name was bound to before is released. -/
theorem follows_release (h : Mirrors R m₁ m₂ ctx₁ ctx₂) {previous₁ previous₂ : Option Slot}
    (hprevious : Option.Rel R previous₁ previous₂) (hst : R s t) :
    Follows R m₁ m₂
      (exec call (do
        if let some p := previous₁ then
          Routine.ask (.releaseUnreachable p (← context))
        pure (some s)) ctx₁ m₁)
      (exec call (do
        if let some p := previous₂ then
          Routine.ask (.releaseUnreachable p (← context))
        pure (some t)) ctx₂ m₂) Option.Rel := by
  cases hprevious with
  | none => exact .still h (.ok (.some hst))
  | some hpq =>
    intro hlast₁ hlast₂
    exact ⟨R, fun _ _ hab => hab, h.release hpq hlast₁ hlast₂, .ok (.some hst)⟩

theorem set_of_length_ne {args : List Slot} (h : args.length ≠ 2) :
    (set args : Routine β _) = arityError "set" 2 args := by
  unfold set
  split
  · exact absurd rfl h
  · rfl

theorem follows_set (hc : Runs call) (hcall : Blind call) {args₁ args₂ : List Slot}
    (h : Mirrors R m₁ m₂ ctx₁ ctx₂) (hargs : List.Forall₂ R args₁ args₂) :
    Follows R m₁ m₂ (exec call (set args₁) ctx₁ m₁) (exec call (set args₂) ctx₂ m₂)
      Option.Rel := by
  by_cases hlength : args₁.length = 2
  · obtain ⟨target, source, rfl⟩ := List.length_eq_two.1 hlength
    cases hargs with
    | cons htarget hargs =>
      cases hargs with
      | cons hsource hargs =>
        cases hargs
        refine (follows_symbolName hc h htarget).bind hc fun hsub₁ hmid₁ hname => ?_
        subst hname
        refine (follows_argument hc hcall hmid₁ (hsub₁ _ _ hsource)).bind hc fun _ hmid₂ hv => ?_
        refine (follows_assign hmid₂ _ hv).bind hc fun hsub₃ hmid₃ hprevious => ?_
        exact follows_release hmid₃ hprevious (hsub₃ _ _ hv)
  · rw [set_of_length_ne hlength, set_of_length_ne (hargs.length_eq ▸ hlength), arityError,
      arityError, hargs.length_eq]
    exact .still h (.error rfl)

/-! ## Evaluations -/

theorem matched_operator (h : Mirrors R m₁ m₂ ctx₁ ctx₂) (hst : R s t) :
    Matched R (m₁.operator ctx₁ s) (m₂.operator ctx₂ t) := by
  unfold operator
  rcases (h.value hst).cases with ⟨v, w, hv, hw, hvw⟩ | ⟨e, e', hv, hw, he⟩
  · rw [hv, hw]
    cases hvw with
    | list _ => exact .ok hst
    | leaf _ =>
      cases v with
      | symbol name => exact h.resolve name
      | _ => exact .ok hst
  · rw [hv, hw]
    exact .error he

theorem follows_routine (hc : Runs call) (hcall : Blind call) (c : Command)
    {args₁ args₂ : List Slot} (h : Mirrors R m₁ m₂ ctx₁ ctx₂) (hargs : List.Forall₂ R args₁ args₂) :
    Follows R m₁ m₂ (exec call (routine c args₁) ctx₁ m₁) (exec call (routine c args₂) ctx₂ m₂)
      Option.Rel := by
  cases c with
  | print => exact follows_print hc hcall h hargs
  | add => exact follows_add hc hcall h hargs
  | set => exact follows_set hc hcall h hargs

section Library

variable {m₁ m₂ : Machine Command}

theorem follows_apply {call : Evaluator Command} (hc : Runs call) (hcall : Blind call)
    {args₁ args₂ : List Slot} (h : Mirrors R m₁ m₂ ctx₁ ctx₂) (hst : R s t)
    (hargs : List.Forall₂ R args₁ args₂) :
    Follows R m₁ m₂ (apply library call s args₁ ctx₁ m₁) (apply library call t args₂ ctx₂ m₂)
      Option.Rel := by
  unfold apply
  rcases (matched_operator h hst).cases with ⟨a, b, ha, hb, hab⟩ | ⟨e, e', ha, hb, he⟩
  · rw [ha, hb]
    simp only
    rcases (h.value hab).cases with ⟨v, w, hv, hw, hvw⟩ | ⟨e, e', hv, hw, he⟩
    · rw [hv, hw]
      cases hvw with
      | list _ => exact .still h (.ok (.some hab))
      | leaf _ =>
        cases v with
        | builtin _ code => exact follows_routine hc hcall code h hargs
        | _ => exact .still h (.ok (.some hab))
    · rw [hv, hw]
      exact .still h (.error he)
  · rw [ha, hb]
    exact .still h (.error he)

/-- Evaluations with the same number of levels left do the same with related slots. -/
theorem blind_evaluateAt (room : Nat) : Blind (evaluateAt library room) := by
  induction room with
  | zero =>
    intro R m₁ m₂ ctx₁ ctx₂ expr₁ expr₂ h hexpr
    cases hexpr with
    | nil => exact .still h (.ok .none)
    | cons _ _ =>
      rw [evaluateAt, evaluateAt, h.maxDepth]
      exact .still h (.error rfl)
  | succ room ih =>
    intro R m₁ m₂ ctx₁ ctx₂ expr₁ expr₂ h hexpr
    cases hexpr with
    | nil => exact .still h (.ok .none)
    | cons hst hargs =>
      -- Going a level deeper and coming back changes the depth only.
      have hdeeper : Mirrors R { m₁ with depth := m₁.depth + 1 } { m₂ with depth := m₂.depth + 1 }
          ctx₁ ctx₂ := { h with depth := congrArg (· + 1) h.depth }
      intro hlast₁ hlast₂
      obtain ⟨R', hsub, hmirrors, hmatched⟩ :=
        follows_apply (runs_evaluateAt library room) ih hdeeper hst hargs hlast₁ hlast₂
      exact ⟨R', hsub, { hmirrors with depth := congrArg (· - 1) hmirrors.depth }, hmatched⟩

theorem blind_evaluate : Blind (evaluate library) := by
  intro R m₁ m₂ ctx₁ ctx₂ expr₁ expr₂ h hexpr
  unfold evaluate
  rw [h.maxDepth, h.depth]
  exact blind_evaluateAt _ h hexpr

end Library

/-! ## Statements -/

theorem follows_evaluateOne (hc : Runs call) (hcall : Blind call) (h : Mirrors R m₁ m₂ ctx₁ ctx₂)
    (statement : List Char) :
    Follows R m₁ m₂ (evaluateOne call statement ctx₁ m₁) (evaluateOne call statement ctx₂ m₂)
      Option.Rel := by
  have hproceeds : ∀ {m : Machine β} {ctx : Context}, m.store.WF →
      Proceeds m (((m.parse statement).1, ctx), (m.parse statement).2) call := fun {m ctx} hm => by
    obtain ⟨es, hrun⟩ := exists_run_parse hm statement
    refine ⟨⟨es, hrun.changes⟩, fun expr => ?_⟩
    obtain ⟨es', hrun'⟩ := hc expr ctx (m.parse statement).2 (hrun.wf hm)
    exact ⟨es', hrun'.changes⟩
  have hread : Follows R m₁ m₂ (((m₁.parse statement).1, ctx₁), (m₁.parse statement).2)
      (((m₂.parse statement).1, ctx₂), (m₂.parse statement).2) List.Forall₂ := h.parse statement
  rw [evaluateOne_eq_next, evaluateOne_eq_next]
  exact hread.next hproceeds hproceeds fun _ hmid hexpr => hcall hmid hexpr

/-- The results of a statement are related if they are kept. -/
def Kept (keep : Bool) (R : Slot → Slot → Prop) (r₁ r₂ : Option Slot) : Prop :=
  keep = true → Option.Rel R r₁ r₂

theorem Agree.symm {out₁ out₂ : Outcome (Option Slot) × Machine β} {keep : Bool}
    (h : Agree R (Kept keep) out₁ out₂) : Agree (flip R) (Kept keep) out₂ out₁ := by
  obtain ⟨R', hsub, hmirrors, hmatched⟩ := h
  refine ⟨flip R', fun s t hst => hsub t s hst, hmirrors.symm, ?_⟩
  rcases hmatched.cases with ⟨r₁, r₂, h₁, h₂, hr⟩ | ⟨e₁, e₂, h₁, h₂, he⟩
  · rw [h₁, h₂]
    exact .ok fun hkeep => optionRel_flip (hr hkeep)
  · rw [h₁, h₂]
    exact .error he.symm

/-- One side ends a statement, the other one goes on as it is. The side that ends it may keep a
result that is not asked for afterwards. -/
theorem Agree.close {out₁ out₂ : Outcome (Option Slot) × Machine β} {keep keep₁ : Bool} {mark : Nat}
    (h : Agree R (Kept keep) out₁ out₂) (hkeep : keep = true → keep₁ = true)
    (h₀ : m₁.store.Mirrors R m₂.store)
    (hfades₁ : m₁.store.Fades out₁.2.store) (hfades₂ : m₂.store.Fades out₂.2.store)
    (hj : ∀ s ∈ out₁.2.store.journal.toList.drop mark, ¬ m₁.store.Issued s)
    (hlast₁ : out₁.2.store.Lasts
      (out₁.2.closeStatement mark (keptSlot keep₁ out₁.1.1) out₁.1.2).store)
    (hlast₂ : out₂.2.store.Lasts out₂.2.store) :
    Agree R (Kept keep) (out₁.1, out₁.2.closeStatement mark (keptSlot keep₁ out₁.1.1) out₁.1.2)
      out₂ := by
  obtain ⟨R', hsub, hmirrors, hmatched⟩ := h
  refine ⟨_, fun s t hst => .inl hst, hmirrors.close h₀ hsub hfades₁ hfades₂ hj hlast₁ hlast₂, ?_⟩
  rcases hmatched.cases with ⟨r₁, r₂, h₁, h₂, hr⟩ | ⟨e₁, e₂, h₁, h₂, he⟩
  · rw [h₁, h₂]
    refine .ok fun hk => optionRel_imp (hr hk) fun a b ha _ hab => .inr ⟨hab, ?_⟩
    -- A result that is kept is where the search for what stays begins.
    obtain rfl := hkeep hk
    subst ha
    exact .root List.mem_cons_self
  · rw [h₁, h₂]
    exact .error he

theorem mirrors_opened (h : Mirrors R m₁ m₂ ctx₁ ctx₂) : Mirrors R (opened m₁) m₂ ctx₁ ctx₂ := by
  unfold opened
  split
  · exact ⟨⟨⟨h.store.wf.1.openJournal, h.store.wf.2⟩, h.store.issued, h.store.value,
      h.store.right_unique, h.store.left_unique⟩, h.globals, h.ctx, h.retained, h.lines, h.depth,
      h.maxDepth⟩
  · exact h

section OneSide

variable {m : Machine β} {ctx : Context} {keep : Bool} {statement : List Char}

theorem lasts_opened (hc : Runs call)
    (hlast : m.store.Lasts (runStatement call keep statement ctx m).2.store) :
    m.store.Lasts (evaluateOne call statement ctx (opened m)).2.store ∧
      (opened m).store.Lasts (evaluateOne call statement ctx (opened m)).2.store := by
  cases hr : m.config.reclaimTemporaries with
  | false =>
    rw [runStatement_of_not_reclaim hr] at hlast
    rw [opened_of_not_reclaim hr]
    exact ⟨hlast, hlast⟩
  | true =>
    rw [runStatement_of_reclaim hr] at hlast
    rw [opened_of_reclaim hr]
    obtain ⟨hstart, hmid, -⟩ := lasts_openStatement hc hlast.refl_left hlast
    exact ⟨hmid, lasts_evaluateOne hc hstart hmid⟩

theorem fades_opened (hb : Behaves call) (hc : Runs call)
    (hlast : m.store.Lasts (runStatement call keep statement ctx m).2.store) :
    m.store.Fades (evaluateOne call statement ctx (opened m)).2.store := by
  have hfades := fades_evaluateOne hb (lasts_opened hc hlast).2
  cases hr : m.config.reclaimTemporaries with
  | false =>
    rw [opened_of_not_reclaim hr] at hfades ⊢
    exact hfades
  | true =>
    rw [opened_of_reclaim hr] at hfades ⊢
    exact hfades

theorem fades_runStatement (hb : Behaves call) (hc : Runs call)
    (hlast : m.store.Lasts (runStatement call keep statement ctx m).2.store) :
    m.store.Fades (runStatement call keep statement ctx m).2.store := by
  have hfades := fades_opened hb hc hlast
  cases hr : m.config.reclaimTemporaries with
  | false =>
    rw [runStatement_of_not_reclaim hr]
    rw [opened_of_not_reclaim hr] at hfades
    exact hfades
  | true =>
    rw [runStatement_of_reclaim hr]
    rw [opened_of_reclaim hr] at hfades
    intro s hs
    show (closeStatement _ _ _ _).store.get? s = _ ∨ (closeStatement _ _ _ _).store.get? s = _
    rw [get?_closeStatement]
    split
    · exact .inr rfl
    · exact hfades s hs

end OneSide

/-- One side goes on to the end of a statement. -/
theorem Agree.runStatement (hb : Behaves call) (hc : Runs call) {keep keep₁ : Bool}
    {statement : List Char} {out₂ : Outcome (Option Slot) × Machine β}
    (h : Agree R (Kept keep) (evaluateOne call statement ctx₁ (opened m₁)) out₂)
    (hkeep : keep = true → keep₁ = true) (h₀ : m₁.store.Mirrors R m₂.store)
    (hlast₁ : m₁.store.Lasts (runStatement call keep₁ statement ctx₁ m₁).2.store)
    (hlast₂ : m₂.store.Lasts out₂.2.store) (hfades₂ : m₂.store.Fades out₂.2.store) :
    Agree R (Kept keep) (runStatement call keep₁ statement ctx₁ m₁) out₂ := by
  obtain ⟨hmid, -⟩ := lasts_opened hc hlast₁
  have hfades₁ := fades_opened hb hc hlast₁
  cases hr : m₁.config.reclaimTemporaries with
  | false =>
    rw [runStatement_of_not_reclaim hr]
    rw [opened_of_not_reclaim hr] at h
    exact h
  | true =>
    rw [runStatement_of_reclaim hr] at hlast₁ ⊢
    rw [opened_of_reclaim hr] at h hmid hfades₁
    exact h.close hkeep h₀ hfades₁ hfades₂
      (fun s hs => not_issued_of_mem_journal hc hmid hmid.refl_left.wf hs)
      (lasts_closeStatement hmid hlast₁) (hlast₂.next (.refl _) hlast₂)

/-- Both sides go through a statement, whether or not they release anything at its end. If both keep
the result then it is related. -/
theorem follows_runStatement (hb : Behaves call) (hc : Runs call) (hcall : Blind call)
    (h : Mirrors R m₁ m₂ ctx₁ ctx₂) {keep keep₁ keep₂ : Bool} (hkeep₁ : keep = true → keep₁ = true)
    (hkeep₂ : keep = true → keep₂ = true) (statement : List Char) :
    Follows R m₁ m₂ (runStatement call keep₁ statement ctx₁ m₁)
      (runStatement call keep₂ statement ctx₂ m₂) (Kept keep) := by
  intro hlast₁ hlast₂
  obtain ⟨hmid₁, hstart₁⟩ := lasts_opened hc hlast₁
  obtain ⟨hmid₂, hstart₂⟩ := lasts_opened hc hlast₂
  have hopened : Mirrors R (opened m₁) (opened m₂) ctx₁ ctx₂ :=
    (mirrors_opened (mirrors_opened h).symm).symm
  obtain ⟨R', hsub, hmirrors, hmatched⟩ :=
    follows_evaluateOne hc hcall hopened statement hstart₁ hstart₂
  have hevaluated : Agree R (Kept keep) (evaluateOne call statement ctx₁ (opened m₁))
      (evaluateOne call statement ctx₂ (opened m₂)) :=
    ⟨R', hsub, hmirrors, hmatched.imp fun _ _ hr _ => hr⟩
  -- The first side ends its statement while the second one waits, and then the other way round.
  have hleft := hevaluated.runStatement hb hc hkeep₁ h.store hlast₁ hmid₂
    (fades_opened hb hc hlast₂)
  exact (hleft.symm.runStatement hb hc hkeep₂ h.store.symm hlast₂ hlast₁
    (fades_runStatement hb hc hlast₁)).symm

/-! ## Texts -/

/-- Changes lead through a statement, and then through what runs after it. -/
theorem proceeds_runStatement (hc : Runs call) {m : Machine β} (hm : m.store.WF) (keep : Bool)
    (statement : List Char) (ctx : Context)
    {f : Option Slot → Context → Machine β → Outcome (Option Slot) × Machine β}
    (hf : ∀ result ctx m, m.store.WF → ∃ es, Run m es (f result ctx m).2) :
    Proceeds m (runStatement call keep statement ctx m) f := by
  obtain ⟨es, hrun⟩ := exists_run_runStatement hc hm keep statement ctx
  refine ⟨⟨es, hrun.changes⟩, fun result => ?_⟩
  obtain ⟨es', hrun'⟩ := hf result (runStatement call keep statement ctx m).1.2 _ (hrun.wf hm)
  exact ⟨es', hrun'.changes⟩

/-- Changes lead through a statement, and then through the statements after it. -/
theorem proceeds_runStatements (hc : Runs call) {m : Machine β} (hm : m.store.WF) (keep : Bool)
    (statement : List Char) (rest : List (List Char)) (ctx : Context) :
    Proceeds m (runStatement call keep statement ctx m) fun _ => runStatements call rest :=
  proceeds_runStatement hc hm keep statement ctx fun _ => exists_run_runStatements hc rest

theorem follows_runStatements (hb : Behaves call) (hc : Runs call) (hcall : Blind call)
    (h : Mirrors R m₁ m₂ ctx₁ ctx₂) (statements : List (List Char)) :
    Follows R m₁ m₂ (runStatements call statements ctx₁ m₁)
      (runStatements call statements ctx₂ m₂) Option.Rel := by
  induction statements generalizing R m₁ m₂ ctx₁ ctx₂ with
  | nil => exact .still h (.ok .none)
  | cons statement rest ih =>
    cases rest with
    | nil =>
      intro hlast₁ hlast₂
      obtain ⟨R', hsub, hmirrors, hmatched⟩ :=
        follows_runStatement hb hc hcall h id id statement hlast₁ hlast₂
      exact ⟨R', hsub, hmirrors, hmatched.imp fun _ _ hr => hr rfl⟩
    | cons next rest =>
      rw [runStatements_cons_cons, runStatements_cons_cons]
      exact (follows_runStatement hb hc hcall h id id statement).next
        (fun hm => proceeds_runStatements hc hm false statement (next :: rest) ctx₁)
        (fun hm => proceeds_runStatements hc hm false statement (next :: rest) ctx₂)
        fun _ hmid _ => ih hmid

/-- Machines that mirror each other evaluate texts alike. -/
theorem follows_eval {m₁ m₂ : Machine Command} (h : Mirrors R m₁ m₂ ctx₁ ctx₂) (source : String) :
    Follows R m₁ m₂ (m₁.eval library source ctx₁) (m₂.eval library source ctx₂) Option.Rel := by
  unfold Machine.eval evalTextBy
  split
  · exact .still h (.error rfl)
  · exact follows_runStatements behaves_evaluate (runs_evaluate library) blind_evaluate h _

end SlotScript.Console
