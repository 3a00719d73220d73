import SlotScript.Proofs.Console.Moves
import SlotScript.Proofs.Machine.Ownership
import SlotScript.Proofs.Machine.Rendering

/-!
# What the command line's builtins hold

An evaluation with the command line's vocabulary uses every slot of its expression at most once, so
it keeps what the machine holds a forest (`careful_evaluate`). A builtin that rebinds a name
releases the tree of the old binding: by `Store.Forest.apart` no other binding, result or pending
slot is in that tree, unless it is its top.

A result can be the top of such a tree. `print` asks for all its arguments before it looks at the
first one, so an argument may have ended by then. No other handle that a builtin uses has ended:
`Ends.stale` says that a failure with `invalidHandle` names a slot that has ended since the
evaluation began.
-/

namespace SlotScript.Console

open Machine Routine

variable {β α γ : Type} {call : Evaluator β} {m m' : Machine β} {ctx ctx' : Context}
  {st₀ : Store β} {held held' rest rest' : List Slot} {s : Slot}

/-! ## Rebinding a name -/

/-- Rebinding a name releases a tree that nothing else holds. -/
theorem holds_bind {m₁ : Machine β} {ctx₁ : Context} {v : Slot} {previous rs : List Slot}
    (h : Holds st₀ m ctx (v :: held) rest) (hv : m.store.isLive v = true)
    (hb : Rebinds m ctx v previous m₁ ctx₁) (hrel : Releases m₁ rs m')
    (hrs : ∀ t, t ∈ rs ↔ m₁.store.isLive t = true ∧ m₁.store.Reaches previous t ∧
      ¬ m₁.store.Reaches (m₁.roots ctx₁) t)
    (hlast : st₀.Lasts m'.store) :
    Holds st₀ m' ctx₁ (v :: held) rest ∧ m'.store.isLive v = true := by
  rw [hb.store] at hrs
  have hunreached : ∀ r ∈ rs, ¬ m.store.Reaches (m₁.roots ctx₁) r := fun r hr => ((hrs r).1 hr).2.2
  have hroots : m'.roots ctx₁ = m₁.roots ctx₁ :=
    hrel.roots ctx₁ fun r hr => by rw [hb.store]; exact hunreached r hr
  have hget : ∀ {t}, t ∉ rs → m'.store.get? t = m.store.get? t := by
    intro t ht
    rw [hrel.get?_of_notMem ht, hb.store]
  have hkept : ∀ {t}, m'.store.isLive t = true → t ∉ rs := fun ht hmem =>
    ne_of_isLive ht (hrel.get?_of_mem hmem) rfl
  have hlive : ∀ {t}, m'.store.isLive t = true → m.store.isLive t = true := by
    intro t ht
    rw [Store.isLive, ← hget (hkept ht)]
    exact ht
  have hlasts : m.store.Lasts m'.store := by
    have hc : m.store.Changes (rs.map .released) m'.store := by
      rw [← hb.store]
      exact hrel.changes fun _ => rfl
    exact h.lasts.next hc hlast
  have hsub : m'.roots ctx₁ ++ (v :: held).filter m'.store.isLive ++ rest ⊆
      m.roots ctx ++ (v :: held).filter m.store.isLive ++ rest := by
    intro t ht
    rw [hroots] at ht
    simp only [List.mem_append, List.mem_filter] at ht ⊢
    rcases ht with (ht | ⟨hmem, hl⟩) | ht
    · rcases hb.mem_roots t ht with ht | rfl
      · exact .inl (.inl ht)
      · exact .inl (.inr ⟨List.mem_cons_self, hv⟩)
    · exact .inl (.inr ⟨hmem, hlive hl⟩)
    · exact .inr ht
  -- What is released was below the old binding, and only its own top shares a slot with it.
  have hspared : ∀ t, m.store.Reaches
      (m'.roots ctx₁ ++ (v :: held).filter m'.store.isLive ++ rest) t → t ∉ rs := by
    intro t ht hmem
    obtain ⟨r, hr, hrt⟩ := ht.exists_root
    obtain ⟨-, hprev, hn⟩ := (hrs t).1 hmem
    obtain ⟨p, hp, hpt⟩ := hprev.exists_root
    have hproot := hb.previous_mem p hp
    obtain rfl : r = p := h.forest.apart (hsub hr)
      (List.mem_append_left _ (List.mem_append_left _ hproot)) hrt hpt
    have hnr : ¬ m.store.Reaches (m₁.roots ctx₁) r := fun hreach =>
      hn (hrt.trans fun x hx => by rwa [List.mem_singleton.1 hx])
    simp only [hroots, List.mem_append, List.mem_filter] at hr
    rcases hr with (hr | ⟨-, hl⟩) | hr
    · exact hnr (.root hr)
    · exact hkept hl ((hrs r).2 ⟨hlive hl, .root hp, hnr⟩)
    · exact (h.apart r hr).1 hproot
  have hvroot : v ∉ rs := fun hmem => hunreached v hmem (.root hb.bound)
  refine ⟨⟨hlast, fun t ht => hlasts.issued (h.issued t ht), ?_, h.nodup, fun t ht => ?_⟩, ?_⟩
  · exact (h.forest.mono hsub).congr fun t ht => hget (hspared t ht)
  · obtain ⟨hnroots, hnheld⟩ := h.apart t ht
    refine ⟨fun hmem => ?_, hnheld⟩
    rw [hroots] at hmem
    rcases hb.mem_roots t hmem with hmem | rfl
    · exact hnroots hmem
    · exact hnheld List.mem_cons_self
  · rw [Store.isLive, hget hvroot]
    exact hv

/-! ## How steps end -/

/-- How a step ends that may hold `held` and has to leave `rest` pending: with something that
satisfies `post`, or with a failure. A handle that the failure names has ended since `st₀`. -/
structure Ends (st₀ : Store β) (held rest : List Slot) (out : Outcome α × Machine β)
    (post : α → Context → Machine β → Prop) : Prop where
  ok : ∀ x, out.1.1 = .ok x → post x out.1.2 out.2
  error : ∀ e, out.1.1 = .error e → Holds st₀ out.2 out.1.2 held rest
  stale : ∀ s, out.1.1 = .error (.invalidHandle s) → out.2.store.Ended s ∧ ¬ st₀.Ended s

/-- A step ends in this way if no place has come round by then. -/
def Minds (st₀ : Store β) (held rest : List Slot) (out : Outcome α × Machine β)
    (post : α → Context → Machine β → Prop) : Prop :=
  st₀.Lasts out.2.store → Ends st₀ held rest out post

/-- A result is given: it is live, and the machine holds it with the other slots. -/
structure Gives (st₀ : Store β) (held rest : List Slot) (result : Option Slot) (ctx : Context)
    (m : Machine β) : Prop where
  holds : Holds st₀ m ctx (result.toList ++ held) rest
  live : ∀ r ∈ result, m.store.isLive r = true

/-- An evaluator that uses the slots of an expression once. -/
def Careful (call : Evaluator β) : Prop :=
  ∀ {st₀ : Store β} {m : Machine β} {ctx : Context} {held rest : List Slot} (expr : List Slot),
    Holds st₀ m ctx held (expr ++ rest) →
      Minds st₀ held rest (call expr ctx m) (Gives st₀ held rest)

variable {post : α → Context → Machine β → Prop} {post' : γ → Context → Machine β → Prop}

theorem minds_ok {x : α} (h : post x ctx m) : Minds st₀ held rest ((.ok x, ctx), m) post := by
  intro _
  refine ⟨fun y hy => ?_, fun e he => (nomatch he), fun s hs => (nomatch hs)⟩
  cases hy
  exact h

theorem minds_error {e : Error} (h : Holds st₀ m ctx held rest) (he : ∀ s, e ≠ .invalidHandle s) :
    Minds st₀ held rest ((.error e, ctx), m) post := by
  intro _
  refine ⟨fun x hx => (nomatch hx), fun _ _ => h, fun s hs => ?_⟩
  cases hs
  exact absurd rfl (he s)

theorem Minds.weaken {out : Outcome α × Machine β} (h : Minds st₀ held rest out post)
    (hheld : held' ⊆ held) (hrest : rest'.Sublist rest) : Minds st₀ held' rest' out post :=
  fun hlast => ⟨(h hlast).ok, fun e he => ((h hlast).error e he).weaken hheld hrest,
    (h hlast).stale⟩

theorem Minds.mono {out : Outcome α × Machine β} {post'' : α → Context → Machine β → Prop}
    (h : Minds st₀ held rest out post) (hp : ∀ x ctx m, post x ctx m → post'' x ctx m) :
    Minds st₀ held rest out post'' :=
  fun hlast => ⟨fun x hx => hp x _ _ ((h hlast).ok x hx), (h hlast).error, (h hlast).stale⟩

/-- A failure is handed on. -/
theorem Minds.failed {e : Error} (h : Minds st₀ held rest ((.error e, ctx), m) post) :
    Minds st₀ held rest ((.error e, ctx), m) post' := by
  intro hlast
  refine ⟨fun x hx => (nomatch hx), fun e' _ => (h hlast).error e rfl, fun s hs => ?_⟩
  cases hs
  exact (h hlast).stale s rfl

/-- Steps in turn. -/
theorem Minds.bind (hc : Runs call) (hm : st₀.Lasts m.store) {r : Routine β α}
    {f : α → Routine β γ} (h : Minds st₀ held rest (exec call r ctx m) post)
    (hf : ∀ x ctx' m', post x ctx' m' → st₀.Lasts m'.store →
      Minds st₀ held rest (exec call (f x) ctx' m') post') :
    Minds st₀ held rest (exec call (r >>= f) ctx m) post' := by
  intro hlast
  have hmid := (lasts_bind hc hm hlast).1
  rw [exec_bind] at hlast ⊢
  generalize exec call r ctx m = out at *
  obtain ⟨⟨result, ctx'⟩, m'⟩ := out
  cases result with
  | ok x => exact hf x ctx' m' ((h hmid).ok x rfl) hmid hlast
  | error e => exact h.failed hlast

theorem value_of_isLive (h : m.store.isLive s = true) :
    ∃ v, m.store.get? s = some v ∧ m.value s = .ok v := by
  obtain ⟨v, hv⟩ := Store.isLive_iff.1 h
  exact ⟨v, hv, value_eq_ok_iff.2 hv⟩

/-- Asking for the value of a live slot. -/
theorem minds_value_bind {f : Value β → Routine β γ} (hs : m.store.isLive s = true)
    (hf : ∀ v, Minds st₀ held rest (exec call (f v) ctx m) post') :
    Minds st₀ held rest (exec call (value s >>= f) ctx m) post' := by
  obtain ⟨v, -, hv⟩ := value_of_isLive hs
  rw [exec_bind, exec_value, hv]
  exact hf v

theorem minds_expect {x : Except Error α} (h : Holds st₀ m ctx held rest)
    (hx : ∀ e, x = .error e → ∀ s, e ≠ .invalidHandle s) (hp : ∀ a, x = .ok a → post a ctx m) :
    Minds st₀ held rest (exec call (expect x) ctx m) post := by
  rw [exec_expect]
  cases x with
  | ok a => exact minds_ok (hp a rfl)
  | error e => exact minds_error h (hx e rfl)

/-! ## Arguments -/

/-- A name stands for a slot that is live. -/
theorem resolve_cases (h : Holds st₀ m ctx held rest) (name : String) :
    (∃ e, m.resolve ctx name = .error e ∧ ∀ s, e ≠ .invalidHandle s) ∨
      ∃ r, m.resolve ctx name = .ok r ∧ Gives st₀ held rest (some r) ctx m := by
  cases hr : m.resolve ctx name with
  | ok r =>
    have hroot : r ∈ m.roots ctx := mem_roots_of_resolve (a := ⟨m, ctx, fun _ => True⟩) hr
    refine .inr ⟨r, rfl, h.root hroot, fun t ht => ?_⟩
    cases ht
    exact h.isLive_of_reaches_roots (.root hroot)
  | error e =>
    refine .inl ⟨e, rfl, fun s hs => ?_⟩
    unfold resolve at hr
    split at hr <;> cases hr
    cases hs

theorem minds_argument (hcall : Careful call) (h : Holds st₀ m ctx held (s :: rest)) :
    Minds st₀ held rest (exec call (argument s) ctx m) fun r => Gives st₀ held rest (some r) := by
  have hdrop : Holds st₀ m ctx held rest :=
    h.weaken (List.Subset.refl _) (List.sublist_cons_self ..)
  have hs : m.store.isLive s = true := h.isLive_of_mem_pending List.mem_cons_self
  obtain ⟨v, hget, hv⟩ := value_of_isLive hs
  rw [exec_argument]
  unfold argumentBy
  rw [hv]
  split
  · next heq => cases heq
  · next name _ =>
    rcases resolve_cases hdrop name with ⟨e, he, hne⟩ | ⟨r, hr, hgives⟩
    · rw [he]
      exact minds_error hdrop hne
    · rw [hr]
      exact minds_ok hgives
  · next items heq =>
    cases heq
    have hitems : m.store.items s = items := Store.items_of_get? hget
    have hcalled := hcall items (hitems ▸ h.opened)
    split
    · next e ctx' m' hout =>
      rw [hout] at hcalled
      exact hcalled.failed
    · next ctx' m' hout =>
      intro hlast
      rw [hout] at hcalled
      exact minds_error ((hcalled hlast).ok none rfl).holds (fun s hs => by cases hs) hlast
    · next r ctx' m' hout =>
      intro hlast
      rw [hout] at hcalled
      exact minds_ok ((hcalled hlast).ok (some r) rfl) hlast
  · refine minds_ok ⟨h.take, fun t ht => ?_⟩
    cases ht
    exact hs

/-- A slot that is live now had not ended before. -/
theorem not_ended (hlast : st₀.Lasts m.store) (hs : m.store.isLive s = true) : ¬ st₀.Ended s :=
  fun he => ne_of_isLive hs (hlast.ended he).get? rfl

/-- All arguments are asked for. Those that were given first may have ended in the meantime. -/
theorem minds_arguments (hc : Runs call) (hcall : Careful call) (args : List Slot)
    {done : List Slot} (h : Holds st₀ m ctx (done ++ held) (args ++ rest))
    (hdone : ∀ s ∈ done, ¬ st₀.Ended s) :
    Minds st₀ held rest (exec call (forEachFrom argument done args) ctx m) fun slots ctx' m' =>
      Holds st₀ m' ctx' (slots ++ held) rest ∧ ∀ s ∈ slots, ¬ st₀.Ended s := by
  induction args generalizing m ctx done with
  | nil =>
    refine minds_ok ⟨h.weaken (fun s hs => ?_) (List.Sublist.refl _), fun s hs => ?_⟩
    · simpa using hs
    · exact hdone s (List.mem_reverse.1 hs)
  | cons s args ih =>
    rw [forEachFrom]
    have harg := (minds_argument hcall h).weaken (List.subset_append_right ..)
      (List.sublist_append_right args rest)
    refine harg.bind hc h.lasts fun r ctx' m' hr _ => ih hr.holds fun t ht => ?_
    rcases List.mem_cons.1 ht with rfl | ht
    · exact not_ended hr.holds.lasts (hr.live t rfl)
    · exact hdone t ht

theorem minds_numberArg (hc : Runs call) (hcall : Careful call)
    (h : Holds st₀ m ctx held (s :: rest)) :
    Minds st₀ held rest (exec call (numberArg s) ctx m)
      fun _ ctx' m' => Holds st₀ m' ctx' held rest := by
  unfold numberArg
  refine (minds_argument hcall h).bind hc h.lasts fun r ctx' m' hr _ => ?_
  have hheld : Holds st₀ m' ctx' held rest :=
    hr.holds.weaken (List.subset_cons_self ..) (List.Sublist.refl _)
  refine minds_value_bind (hr.live r rfl) fun v => minds_expect hheld (fun e he t ht => ?_)
    fun _ _ => hheld
  subst ht
  cases v <;> cases he

theorem minds_sumArgs (hc : Runs call) (hcall : Careful call) (args : List Slot) (total : Float)
    (h : Holds st₀ m ctx held (args ++ rest)) :
    Minds st₀ held rest (exec call (sumArgs total args) ctx m)
      fun _ ctx' m' => Holds st₀ m' ctx' held rest := by
  induction args generalizing m ctx total with
  | nil => exact minds_ok h
  | cons s args ih =>
    rw [sumArgs]
    have harg := minds_numberArg hc hcall h
    intro hlast
    refine Minds.bind hc h.lasts (harg.weaken (List.Subset.refl _)
      (List.sublist_append_right args rest)) (fun x ctx' m' hm' _ => ih _ hm') hlast

/-! ## Printing -/

/-- What `print` shows of a slot. -/
def shownText (m : Machine β) (s : Slot) : Except Error String :=
  match m.value s with
  | .error e => .error e
  | .ok (.text t) => .ok t
  | .ok _ => m.render s

theorem exec_shown (s : Slot) :
    exec call (shown s) ctx m = ((shownText m s, ctx), m) := by
  unfold shown shownText
  rw [exec_bind, exec_value]
  cases m.value s with
  | error e => rfl
  | ok v =>
    simp only [next]
    cases v with
    | text t => rfl
    | _ => exact exec_render s

theorem exec_forEachFrom_shown (slots : List Slot) (words : List String) :
    exec call (forEachFrom shown words slots) ctx m =
      (((collect (shownText m) slots).map (words.reverse ++ ·), ctx), m) := by
  induction slots generalizing words with
  | nil => simp [forEachFrom, collect, exec, Except.map]; rfl
  | cons s slots ih =>
    rw [forEachFrom, exec_bind, exec_shown, collect]
    cases shownText m s with
    | error e => rfl
    | ok w =>
      simp only [next]
      rw [ih]
      cases collect (shownText m) slots <;> simp [Except.map]

/-- Unfolding meets no stale slot where all slots are live. -/
theorem unfold_ne_invalidHandle (room : Nat) {r : Slot}
    (h : ∀ t, m.store.Reaches [r] t → m.store.isLive t = true) :
    m.unfold room r ≠ .error (.invalidHandle s) := by
  intro he
  rcases unfold_eq_error he with ⟨hdeep, -⟩ | ⟨k, t, -, hbelow, hstale, -⟩
  · cases hdeep
  · rw [h t (Store.reaches_singleton_iff.2 hbelow.path)] at hstale
    cases hstale

/-- Showing a slot fails with a stale handle only if it is that slot. -/
theorem eq_of_shownText_eq_invalidHandle (h : Holds st₀ m ctx held rest) {r : Slot} (hr : r ∈ held)
    (he : shownText m r = .error (.invalidHandle s)) : s = r ∧ m.store.Ended r := by
  cases hget : m.store.get? r with
  | none =>
    have hv : m.value r = .error (.invalidHandle r) := by rw [Machine.value, Store.get, hget]
    rw [shownText, hv] at he
    cases he
    exact ⟨rfl, (h.issued s hr).ended hget⟩
  | some v =>
    have hlive := Store.isLive_iff.2 ⟨v, hget⟩
    rw [shownText, value_eq_ok_iff.2 hget] at he
    split at he
    · next heq => cases heq
    · cases he
    · rw [Machine.render] at he
      cases hunfold : m.unfold m.config.maxDepth r with
      | ok t =>
        rw [hunfold] at he
        cases he
      | error e =>
        rw [hunfold] at he
        cases he
        exact absurd hunfold (unfold_ne_invalidHandle _ fun t => h.isLive_of_reaches_held hr hlive)

theorem minds_print (hc : Runs call) (hcall : Careful call) (args : List Slot)
    (h : Holds st₀ m ctx held (args ++ rest)) :
    Minds st₀ held rest (exec call (print args) ctx m) (Gives st₀ held rest) := by
  unfold print
  have hnone : Holds st₀ m ctx ([] ++ held) (args ++ rest) := h
  have hargs := minds_arguments hc hcall args hnone fun _ hs => absurd hs List.not_mem_nil
  refine hargs.bind hc h.lasts fun slots ctx' m' hslots _ => ?_
  obtain ⟨hheld, hended⟩ := hslots
  have hdrop : Holds st₀ m' ctx' held rest :=
    hheld.weaken (List.subset_append_right ..) (List.Sublist.refl _)
  rw [exec_bind, forEach, exec_forEachFrom_shown]
  cases hcollect : collect (shownText m') slots with
  | error e =>
    refine fun hlast => ⟨fun x hx => (nomatch hx), fun _ _ => hdrop, fun s hs => ?_⟩
    cases hs
    obtain ⟨r, hr, he⟩ := exists_mem_of_collect_eq_error hcollect
    obtain ⟨rfl, hstale⟩ := eq_of_shownText_eq_invalidHandle hheld (List.mem_append_left _ hr) he
    exact ⟨hstale, hended s hr⟩
  | ok words => exact minds_ok ⟨hdrop.aside rfl rfl rfl, fun r hr => (nomatch hr)⟩

/-! ## Adding and binding -/

theorem minds_add (hc : Runs call) (hcall : Careful call) (args : List Slot)
    (h : Holds st₀ m ctx held (args ++ rest)) :
    Minds st₀ held rest (exec call (add args) ctx m) (Gives st₀ held rest) := by
  have hdrop : Holds st₀ m ctx held rest :=
    h.weaken (List.Subset.refl _) (List.sublist_append_right ..)
  unfold add atLeast
  rw [exec_bind]
  split
  · refine (minds_sumArgs hc hcall args 0 h).bind hc h.lasts fun x ctx' m' hm' _ => ?_
    rw [exec_give]
    intro hlast
    refine minds_ok ⟨hm'.give rfl hlast, fun r hr => ?_⟩ hlast
    cases hr
    rw [Store.isLive, Stores.get?_allocate hm'.wf, if_pos rfl]
    rfl
  · exact minds_error hdrop fun s hs => by cases hs

theorem minds_release {m₁ : Machine β} {ctx₁ : Context} {v : Slot} {previous : Option Slot}
    (h : Gives st₀ held rest (some v) ctx m)
    (hb : Rebinds m ctx v previous.toList m₁ ctx₁) :
    Minds st₀ held rest (exec call (do
        if let some p := previous then
          Routine.ask (.releaseUnreachable p (← context))
        pure (some v)) ctx₁ m₁) (Gives st₀ held rest) := by
  intro hlast
  have hlive := h.live v rfl
  cases previous with
  | none =>
    obtain ⟨hholds, hl⟩ := holds_bind h.holds hlive hb (.nil m₁) (fun t =>
      ⟨fun ht => absurd ht List.not_mem_nil, fun ht => ht.2.1.not_nil.elim⟩) hlast
    refine minds_ok ⟨hholds, fun r hr => ?_⟩ hlast
    cases hr
    exact hl
  | some p =>
    obtain ⟨rs, hrel, hrs⟩ := exists_releases_releaseAllUnreachable m₁ ctx₁ [p]
    obtain ⟨hholds, hl⟩ := holds_bind h.holds hlive hb hrel hrs hlast
    refine minds_ok ⟨hholds, fun r hr => ?_⟩ hlast
    cases hr
    exact hl

theorem minds_set (hc : Runs call) (hcall : Careful call) (args : List Slot)
    (h : Holds st₀ m ctx held (args ++ rest)) :
    Minds st₀ held rest (exec call (set args) ctx m) (Gives st₀ held rest) := by
  have hdrop : Holds st₀ m ctx held rest :=
    h.weaken (List.Subset.refl _) (List.sublist_append_right ..)
  unfold set
  split
  · next target source =>
    have hsource : Holds st₀ m ctx held (source :: rest) :=
      h.weaken (List.Subset.refl _) (List.sublist_cons_self ..)
    have hname : Minds st₀ held rest (exec call (symbolName target) ctx m)
        fun _ ctx' m' => ctx' = ctx ∧ m' = m := by
      unfold symbolName
      refine minds_value_bind (h.isLive_of_mem_pending List.mem_cons_self) fun v =>
        minds_expect hdrop (fun e he t ht => ?_) fun _ _ => ⟨rfl, rfl⟩
      subst ht
      cases v <;> cases he
    refine hname.bind hc h.lasts fun name ctx' m' heq _ => ?_
    obtain ⟨rfl, rfl⟩ := heq
    refine (minds_argument hcall hsource).bind hc h.lasts fun v ctx' m' hv _ => ?_
    rw [exec_bind, exec_assign]
    cases ctx' with
    | none => exact minds_release hv rebinds_global
    | some t => exact minds_release hv rebinds_local
  · exact minds_error hdrop fun s hs => by cases hs

/-! ## Evaluations -/

theorem minds_apply {m : Machine Command} {call : Evaluator Command} {st₀ : Store Command}
    (hc : Runs call) (hcall : Careful call) {head : Slot} {args : List Slot}
    (h : Holds st₀ m ctx held (head :: args ++ rest)) :
    Minds st₀ held rest (apply library call head args ctx m) (Gives st₀ held rest) := by
  have hargs : Holds st₀ m ctx held (args ++ rest) :=
    h.weaken (List.Subset.refl _) (List.sublist_cons_self ..)
  have hdrop : Holds st₀ m ctx held rest :=
    hargs.weaken (List.Subset.refl _) (List.sublist_append_right ..)
  have hhead : m.store.isLive head = true := h.isLive_of_mem_pending List.mem_cons_self
  -- The operator is the head itself or a bound slot, so it is live.
  have hop : (∃ e, m.operator ctx head = .error e ∧ ∀ s, e ≠ .invalidHandle s) ∨
      ∃ s, m.operator ctx head = .ok s ∧ Gives st₀ held rest (some s) ctx m := by
    obtain ⟨v, -, hv⟩ := value_of_isLive hhead
    unfold operator
    rw [hv]
    split
    · next heq => cases heq
    · next name _ => exact resolve_cases hdrop name
    · refine .inr ⟨head, rfl, ?_, fun t ht => ?_⟩
      · exact h.take.weaken (List.Subset.refl _) (List.sublist_append_right ..)
      · cases ht
        exact hhead
  unfold apply
  rcases hop with ⟨e, he, hne⟩ | ⟨s, hs, hgives⟩
  · rw [he]
    exact minds_error hdrop hne
  · obtain ⟨v, -, hv⟩ := value_of_isLive (hgives.live s rfl)
    simp only [hs, hv]
    split
    · next heq => cases heq
    · next code _ =>
      cases code with
      | print => exact minds_print hc hcall args hargs
      | add => exact minds_add hc hcall args hargs
      | set => exact minds_set hc hcall args hargs
    · exact minds_ok hgives

/-- Every evaluation with the command line's vocabulary uses the slots of its expression once. -/
theorem careful_evaluateAt (room : Nat) : Careful (evaluateAt library room) := by
  induction room with
  | zero =>
    intro st₀ m ctx held rest expr h
    cases expr with
    | nil => exact minds_ok ⟨h, fun r hr => (nomatch hr)⟩
    | cons head args =>
      refine minds_error (h.weaken (List.Subset.refl _) (List.sublist_append_right ..)) ?_
      intro s hs
      cases hs
  | succ room ih =>
    intro st₀ m ctx held rest expr h
    cases expr with
    | nil => exact minds_ok ⟨h, fun r hr => (nomatch hr)⟩
    | cons head args =>
      -- Going a level deeper and coming back changes the depth only.
      have hdeeper : Holds st₀ { m with depth := m.depth + 1 } ctx held (head :: args ++ rest) :=
        h.aside rfl rfl rfl
      have hends := minds_apply (runs_evaluateAt library room) ih hdeeper
      intro hlast
      have hends := hends hlast
      refine ⟨fun x hx => ?_, fun e he => (hends.error e he).aside rfl rfl rfl, hends.stale⟩
      have hgives := hends.ok x hx
      exact ⟨hgives.holds.aside rfl rfl rfl, hgives.live⟩

theorem careful_evaluate : Careful (evaluate library) :=
  fun expr => careful_evaluateAt _ expr

end SlotScript.Console
