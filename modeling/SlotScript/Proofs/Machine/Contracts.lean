import SlotScript.Proofs.Machine.Levels

/-!
# What routines ask for

A routine is a program of requests, so what it may ask for, and how it ends, can be said without a
machine: a `Contract` says which requests it makes, what it takes for granted of the answers and
what it promises of a failure. `Routine.Meets` is proved along the text of a routine, one rule for
each way to build one.

A machine honours a contract if it answers the requests as the contract has it, as long as something
holds of the machine, and this goes on to hold. Then what a routine promises comes true
(`Honours.runAction`), and all that it asks for on the way is what it may ask for, on machines of
this kind (`Honours.of_asks`).
-/

namespace SlotScript

variable {β α γ : Type}

/-- What a routine may ask for, what it may take for granted of the answers, and which failures it
may end with. -/
structure Contract (β : Type) where
  request : Request β → Prop
  reply : (r : Request β) → r.Reply → Prop
  failure : Error → Prop

variable {c : Contract β} {post : α → Prop} {post' : γ → Prop}

/-! ## Actions -/

/-- The action makes requests of the contract and ends with what satisfies `post`, if the answers
are those of the contract. -/
def Action.Meets (c : Contract β) (post : α → Prop) : Action β α → Prop
  | .done a => post a
  | .ask r next => c.request r ∧ ∀ x, c.reply r x → (next x).Meets c post

theorem Action.Meets.andThen {act : Action β α} {f : α → Action β γ} (h : act.Meets c post)
    (hf : ∀ a, post a → (f a).Meets c post') : (act.andThen f).Meets c post' := by
  induction act with
  | done a => exact hf a h
  | ask r next ih => exact ⟨h.1, fun x hx => ih x (h.2 x hx)⟩

/-! ## Routines -/

/-- How a routine may end: with what satisfies `post`, or with a failure of the contract. -/
def Contract.ends (c : Contract β) (post : α → Prop) : Outcome α → Prop
  | (.ok a, _) => post a
  | (.error e, _) => c.failure e

namespace Routine

/-- The routine keeps to the contract in every context. -/
def Meets (c : Contract β) (post : α → Prop) (r : Routine β α) : Prop :=
  ∀ ctx, (r.run.run ctx).Meets c (c.ends post)

theorem meets_pure {a : α} (h : post a) : (pure a : Routine β α).Meets c post :=
  fun _ => h

theorem meets_throw {e : Error} (h : c.failure e) : (throw e : Routine β α).Meets c post :=
  fun _ => h

theorem meets_ask {r : Request β} (h : c.request r) : (ask r).Meets c (c.reply r) :=
  fun _ => ⟨h, fun _ hx => hx⟩

theorem meets_context : (context : Routine β Context).Meets c fun _ => True :=
  fun _ => trivial

theorem meets_setContext (ctx : Context) :
    (setContext ctx : Routine β Unit).Meets c fun _ => True :=
  fun _ => trivial

theorem meets_expect {x : Except Error α} (hok : ∀ a, x = .ok a → post a)
    (herror : ∀ e, x = .error e → c.failure e) : (expect x : Routine β α).Meets c post := by
  cases x with
  | ok a => exact meets_pure (hok a rfl)
  | error e => exact meets_throw (herror e rfl)

theorem Meets.bind {r : Routine β α} {f : α → Routine β γ} (h : r.Meets c post)
    (hf : ∀ a, post a → (f a).Meets c post') : (r >>= f).Meets c post' := by
  intro ctx
  have hrun : (r >>= f).run.run ctx = (r.run.run ctx).andThen fun x =>
      (ExceptT.bindCont f x.1 : StateT Context (Action β) (Except Error γ)) x.2 := rfl
  rw [hrun]
  refine (h ctx).andThen fun out hout => ?_
  obtain ⟨result, ctx'⟩ := out
  cases result with
  | ok a => exact hf a hout ctx'
  | error e => exact hout

theorem meets_forEachFrom {f : α → Routine β γ} (members : List α) (done : List γ)
    (hf : ∀ a ∈ members, (f a).Meets c fun _ => True) :
    (forEachFrom f done members).Meets c fun _ => True := by
  induction members generalizing done with
  | nil => exact meets_pure trivial
  | cons a rest ih =>
    exact (hf a List.mem_cons_self).bind fun x _ =>
      ih (x :: done) fun b hb => hf b (List.mem_cons_of_mem _ hb)

end Routine

/-! ## Machines that honour a contract -/

namespace Machine

variable {call : Evaluator β} {inv : Machine β → Prop} {m m' : Machine β}

/-- While the invariant holds, requests of the contract are answered as it has it, and the invariant
goes on to hold. -/
def Honours (call : Evaluator β) (c : Contract β) (inv : Machine β → Prop) : Prop :=
  ∀ r m, c.request r → inv m → c.reply r (answer call r m).1 ∧ inv (answer call r m).2

theorem Honours.runAction (hc : Honours call c inv) {act : Action β α} (h : act.Meets c post)
    (hm : inv m) :
    post (Machine.runAction call act m).1 ∧ inv (Machine.runAction call act m).2 := by
  induction act generalizing m with
  | done a => exact ⟨h, hm⟩
  | ask r next ih =>
    obtain ⟨hreply, hm'⟩ := hc r m h.1 hm
    exact ih _ (h.2 _ hreply) hm'

theorem Honours.of_asks (hc : Honours call c inv) {act : Action β α} {r : Request β}
    (ha : Asks call act m r m') (h : act.Meets c post) (hm : inv m) : c.request r ∧ inv m' := by
  induction ha with
  | now r next m => exact ⟨h.1, hm⟩
  | @later r r' next m m' _ ih =>
    obtain ⟨hreply, hm'⟩ := hc r m h.1 hm
    exact ih (h.2 _ hreply) hm'

end Machine

end SlotScript
