import Mathlib
import SlotScript.Proofs.Console.Leaks
import SlotScript.Proofs.Console.Ownership
import SlotScript.Proofs.Machine.Acceptance
import SlotScript.Proofs.Machine.Reclamation
import SlotScript.Proofs.Machine.Statements

/-!
# Sessions: no binding and no result dangles

In a session the command line's machine evaluates texts in one context, which starts empty, or
without one, and the embedding program retains results and lets them go. After every step, whether
it succeeded or failed, everything that a binding or a retained slot reaches is live, and so is
everything that a result reaches when it is given: `session_live`.

A statement keeps this because the slots of its expression are used once (`careful_evaluate`), and
the end of the statement because what it releases was stored since the statement began, so no
earlier result reaches it.

Handles do go stale inside one evaluation: `print x (set x 2)` asks for the slot of `x` and then
lets `set` release it. `ended_of_eval_eq_invalidHandle` says that this is all that happens: a handle
that an evaluation reports had not ended when the evaluation began.
-/

namespace SlotScript.Console

open Machine
open Event (Sparing)

variable {β : Type} {call : Evaluator β} {m m' : Machine β} {ctx ctx' : Context} {st₀ : Store β}
  {held : List Slot} {s : Slot}

/-! ## Reading -/

theorem holds_undoes (h : Holds st₀ m ctx held []) (hu : Undoes m m')
    (hlast : st₀.Lasts m'.store) : Holds st₀ m' ctx held [] := by
  obtain ⟨es, hrun, -⟩ := hu.run
  have hlasts : m.store.Lasts m'.store := h.lasts.next hrun.changes hlast
  have hlive : ∀ s, m'.store.isLive s = m.store.isLive s := fun s => by
    rw [Store.isLive, Store.isLive, hu.get?]
  refine ⟨hlast, fun s hs => hlasts.issued (h.issued s hs), ?_, List.nodup_nil,
    fun s hs => absurd hs List.not_mem_nil⟩
  rw [List.filter_congr fun s _ => hlive s]
  refine (h.forest.congr fun s _ => hu.get? s).mono fun s hs => ?_
  rw [List.append_nil, List.mem_append] at hs ⊢
  exact hs.imp (fun hs => roots_subset hu.globals hu.retained ctx hs) id

theorem holds_parse {source : List Char} {expr : List Slot} (h : Holds st₀ m ctx held [])
    (hparse : m.parse source = (.ok expr, m')) (hlast : st₀.Lasts m'.store) :
    Holds st₀ m' ctx held (expr ++ []) := by
  obtain ⟨ss, hl⟩ := exists_loads_of_parse h.wf hparse
  have hlasts : m.store.Lasts m'.store := h.lasts.next hl.stores.run.changes hlast
  have hroots : m'.roots ctx = m.roots ctx := by
    rw [Machine.roots, Machine.roots, hl.stores.globals, hl.stores.retained]
  have hfilter : held.filter m'.store.isLive = held.filter m.store.isLive := by
    refine List.filter_congr fun s hs => Bool.eq_iff_iff.2 ⟨hlasts.isLive (h.issued s hs), ?_⟩
    intro hlive
    obtain ⟨v, hv⟩ := Store.isLive_iff.1 hlive
    exact Store.isLive_iff.2 ⟨v, hl.stores.get?_of_get? h.wf hv⟩
  obtain ⟨hforest, hnodup, hnot⟩ := forest_parse h.wf h.forest hparse
  simp only [List.append_nil] at hforest hnot
  refine ⟨hlast, fun s hs => hlasts.issued (h.issued s hs), ?_, by rwa [List.append_nil], ?_⟩
  · rw [hroots, hfilter]
    refine hforest.mono fun s hs => ?_
    simp only [List.append_nil, List.mem_append] at hs ⊢
    exact hs.symm
  · intro s hs
    rw [List.append_nil] at hs
    have hlive : m'.store.isLive s = true := hforest.live s (.root (List.mem_append_left _ hs))
    have hns := hnot s hs
    rw [List.mem_append, not_or] at hns
    rw [hroots]
    refine ⟨hns.1, fun hmem => hns.2 (List.mem_filter.2 ⟨hmem, ?_⟩)⟩
    exact hlasts.isLive (h.issued s hmem) hlive

theorem minds_evaluateOne (hc : Runs call) (hcall : Careful call) (h : Holds st₀ m ctx held [])
    (statement : List Char) :
    Minds st₀ held [] (evaluateOne call statement ctx m) (Gives st₀ held []) := by
  unfold evaluateOne
  split
  · next e m' hparse =>
    intro hlast
    refine minds_error (holds_undoes h (undoes_of_parse h.wf hparse) hlast) (fun s hs => ?_) hlast
    exact parse_ne_invalidHandle m statement s (by rw [hparse, hs])
  · next expr m' hparse =>
    intro hlast
    obtain ⟨ss, hl⟩ := exists_loads_of_parse h.wf hparse
    obtain ⟨es, hrun⟩ := hc expr ctx m' (hl.stores.wf h.wf)
    have hmid := h.lasts.upTo hl.stores.run.changes hrun.changes hlast
    exact hcall expr (holds_parse h hparse hmid) hlast

/-! ## Statements -/

/-- A slot that was handed out before a statement is evaluated has its value after that, or none. -/
theorem fades_evaluateOne (hb : Behaves call) {statement : List Char}
    (hlast : m.store.Lasts (evaluateOne call statement ctx m).2.store) :
    m.store.Fades (evaluateOne call statement ctx m).2.store := by
  intro s hs
  have hwf := hlast.refl_left.wf
  unfold evaluateOne at hlast ⊢
  split at hlast
  · next e m' hparse => exact .inl ((undoes_of_parse hwf hparse).get? s)
  · next expr m' hparse =>
    obtain ⟨ss, hl⟩ := exists_loads_of_parse hwf hparse
    have hexpr : ∀ s ∈ expr, s ∈ ss := fun s hs => hl.mem_iff.2 (.root hs)
    obtain ⟨es, own, hmoves, -⟩ := hb ⟨m', ctx, (· ∈ ss)⟩ expr (sound_of_loads hwf hl) hexpr
    have hcarries := Carries.moves hwf hl hmoves
    obtain ⟨past, ha, hes⟩ := hlast.accounts hcarries.changes
    exact ((hcarries.keeps past ha hes m ctx (.refl m ctx)).value s hs).imp id And.left

/-- The end of a statement releases nothing that is held: what it releases is new, and neither the
kept result nor a root reaches it. -/
theorem holds_closeStatement {mark : Nat} {kept : Option Slot} (hm : Holds st₀ m ctx held [])
    (h : Holds st₀ m' ctx' (kept.toList ++ held) []) (hlasts : m.store.Lasts m'.store)
    (hfades : m.store.Fades m'.store)
    (hj : ∀ s ∈ m'.store.journal.toList.drop mark, ¬ m.store.Issued s)
    (hlast : st₀.Lasts (m'.closeStatement mark kept ctx').store) :
    Holds st₀ (m'.closeStatement mark kept ctx') ctx' (kept.toList ++ held) [] := by
  obtain ⟨rs, m'', hrel, heq, -⟩ := exists_releases_closeStatement m' mark kept ctx'
  have hclosed := h.lasts.next (hrel.changes_closeStatement heq) hlast
  -- What an old result reaches it reached before the statement, so it stands in no journal.
  have hbelow : ∀ {r t}, r ∈ held → m'.store.isLive r = true → m'.store.Reaches [r] t →
      m.store.Issued t := by
    intro r t hr hl ht
    have hlr : m.store.isLive r = true := hlasts.isLive (hm.issued r hr) hl
    have hreach : m.store.Reaches [r] t := by
      refine ht.closed (fun x hx => .root hx) fun a ha b hb => ha.item ?_
      have hla : m.store.isLive a = true := hm.isLive_of_reaches_held hr hlr ha
      rcases hfades a (.inl hla) with hget | hget
      · rwa [Store.items_congr hget] at hb
      · rw [Store.items_eq_nil_of_get?_eq_none hget] at hb
        cases hb
    exact .inl (hm.isLive_of_reaches_held hr hlr hreach)
  have hlive : ∀ {r}, (m'.closeStatement mark kept ctx').store.isLive r = true →
      m'.store.isLive r = true := fun {r} hl => by
    rw [Store.isLive, get?_closeStatement] at hl
    split at hl
    · cases hl
    · exact hl
  have hspared : ∀ r ∈ m'.roots ctx' ++
      (kept.toList ++ held).filter (m'.closeStatement mark kept ctx').store.isLive ++ [],
      ∀ t, m'.store.Reaches [r] t →
        (m'.closeStatement mark kept ctx').store.get? t = m'.store.get? t := by
    intro r hr t ht
    rw [get?_closeStatement, if_neg]
    rintro ⟨hmem, hn⟩
    have hroots : ∀ x ∈ [r], x ∈ kept.toList ++ m'.roots ctx' → False := fun x hx hxr =>
      hn (ht.mono fun y hy => by rwa [List.mem_singleton.1 hy, ← List.mem_singleton.1 hx])
    simp only [List.append_nil, List.mem_append, List.mem_filter] at hr
    rcases hr with hr | ⟨hr | hr, hl⟩
    · exact hroots r (List.mem_singleton_self r) (List.mem_append_right _ hr)
    · exact hroots r (List.mem_singleton_self r) (List.mem_append_left _ hr)
    · exact hj t hmem (hbelow hr (hlive hl) ht)
  refine ⟨hlast, fun r hr => hclosed.issued (h.issued r hr), ?_, List.nodup_nil,
    fun r hr => absurd hr List.not_mem_nil⟩
  rw [roots_closeStatement]
  refine Store.Forest.congr (h.forest.mono fun r hr => ?_) fun t ht => ?_
  · simp only [List.append_nil, List.mem_append, List.mem_filter] at hr ⊢
    exact hr.imp id (And.imp id hlive)
  · obtain ⟨r, hr, hrt⟩ := ht.exists_root
    exact hspared r hr t hrt

theorem Gives.kept {result : Option Slot} (h : Gives st₀ held [] result ctx m) (keep : Bool) :
    Gives st₀ held [] (keptSlot keep (.ok result)) ctx m := by
  have hmem : ∀ r, r ∈ keptSlot keep (.ok result) → r ∈ result := by
    intro r hr
    cases result with
    | none => cases hr
    | some s =>
      rw [keptSlot] at hr
      split at hr
      · exact hr
      · cases hr
  refine ⟨h.holds.weaken (fun r hr => ?_) (List.Sublist.refl _), fun r hr => h.live r (hmem r hr)⟩
  rw [List.mem_append, Option.mem_toList] at hr ⊢
  exact hr.imp (hmem r) id

/-- The end of a statement keeps what its evaluation gave. -/
theorem ends_closeStatement {out : Outcome (Option Slot) × Machine β} {mark : Nat} {keep : Bool}
    (hm : Holds st₀ m ctx held []) (hends : Ends st₀ held [] out (Gives st₀ held []))
    (hlasts : m.store.Lasts out.2.store)
    (hfades : m.store.Fades out.2.store)
    (hj : ∀ s ∈ out.2.store.journal.toList.drop mark, ¬ m.store.Issued s)
    (hlast : st₀.Lasts (out.2.closeStatement mark (keptSlot keep out.1.1) out.1.2).store) :
    Ends st₀ held [] (out.1, out.2.closeStatement mark (keptSlot keep out.1.1) out.1.2)
      fun result => Gives st₀ held [] (keptSlot keep (.ok result)) := by
  obtain ⟨⟨result, ctx'⟩, m'⟩ := out
  cases result with
  | error e =>
    have hclosed : Holds st₀ (m'.closeStatement mark none ctx') ctx' held [] :=
      holds_closeStatement hm (hends.error e rfl) hlasts hfades hj hlast
    refine ⟨fun x hx => (nomatch hx), fun _ _ => hclosed, fun s hs => ?_⟩
    cases hs
    obtain ⟨hended, hrecent⟩ := hends.stale s rfl
    exact ⟨(lasts_closeStatement (hends.error _ rfl).lasts hlast).ended hended, hrecent⟩
  | ok result =>
    have hkept := (hends.ok result rfl).kept keep
    have hclosed := holds_closeStatement hm hkept.holds hlasts hfades hj hlast
    refine ⟨fun x hx => ?_, fun e he => (nomatch he), fun s hs => (nomatch hs)⟩
    cases hx
    refine ⟨hclosed, fun r hr => ?_⟩
    have hreach : m'.store.Reaches ((keptSlot keep (.ok result)).toList ++ m'.roots ctx') r :=
      .root (List.mem_append_left _ (Option.mem_toList.2 hr))
    show ((m'.closeStatement mark (keptSlot keep (.ok result)) ctx').store.get? r).isSome = true
    rw [get?_closeStatement, if_neg fun hc => hc.2 hreach]
    exact hkept.live r hr

theorem minds_runStatement (hb : Behaves call) (hc : Runs call) (hcall : Careful call)
    (h : Holds st₀ m ctx held []) (keep : Bool) (statement : List Char) :
    Minds st₀ held [] (runStatement call keep statement ctx m)
      fun result => Gives st₀ held [] (keptSlot keep (.ok result)) := by
  cases hr : m.config.reclaimTemporaries with
  | false =>
    rw [runStatement_of_not_reclaim hr]
    exact (minds_evaluateOne hc hcall h statement).mono fun result ctx' m' hg => hg.kept keep
  | true =>
    rw [runStatement_of_reclaim hr]
    intro hlast
    obtain ⟨hstart, hmid, hlasts⟩ := lasts_openStatement hc h.lasts hlast
    have hopened : Holds st₀ m.openStatement.2 ctx held [] :=
      ⟨hstart, h.issued, h.forest.congr fun _ _ => get?_openStatement, h.nodup, h.apart⟩
    have hfades : m.store.Fades (evaluateOne call statement ctx m.openStatement.2).2.store :=
      fades_evaluateOne hb (lasts_evaluateOne hc hstart hmid)
    exact ends_closeStatement h (minds_evaluateOne hc hcall hopened statement hmid) hlasts hfades
      (fun s hs => not_issued_of_mem_journal hc hlasts h.wf hs) hlast

/-! ## Texts -/

theorem minds_runStatements (hb : Behaves call) (hc : Runs call) (hcall : Careful call)
    (statements : List (List Char)) (ctx : Context) (m : Machine β)
    (h : Holds st₀ m ctx held []) :
    Minds st₀ held [] (runStatements call statements ctx m) (Gives st₀ held []) := by
  fun_induction runStatements call statements ctx m with
  | case1 ctx m => exact minds_ok ⟨h, fun r hr => by cases hr⟩
  | case2 statement ctx m =>
    refine (minds_runStatement hb hc hcall h true statement).mono fun result ctx' m' hg => ?_
    cases result with
    | none => exact hg
    | some r => exact hg
  | case3 statement rest ctx m _ e ctx' m' heq =>
    have hstatement := minds_runStatement hb hc hcall h false statement
    rw [heq] at hstatement
    exact hstatement.failed
  | case4 statement rest ctx m _ result ctx' m' heq ih =>
    intro hlast
    obtain ⟨es, hrun⟩ := exists_run_runStatement hc h.wf false statement ctx
    have hstatement := minds_runStatement hb hc hcall h false statement
    rw [heq] at hrun hstatement
    obtain ⟨es', hrest⟩ := exists_run_runStatements hc rest ctx' m' (hrun.wf h.wf)
    have hgives := (hstatement (h.lasts.upTo hrun.changes hrest.changes hlast)).ok result rfl
    rw [keptSlot_false] at hgives
    exact ih hgives.holds hlast

/-- Evaluating a text keeps what the machine holds a forest. -/
theorem minds_eval {m : Machine Command} {st₀ : Store Command} (h : Holds st₀ m ctx held [])
    (source : String) : Minds st₀ held [] (m.eval library source ctx) (Gives st₀ held []) := by
  unfold Machine.eval evalTextBy
  split
  · exact minds_error h fun s hs => by cases hs
  · exact minds_runStatements behaves_evaluate (runs_evaluate library) careful_evaluate _
      ctx m h

theorem Ends.kept {out : Outcome (Option Slot) × Machine β}
    (h : Ends st₀ held [] out (Gives st₀ held [])) :
    Holds st₀ out.2 out.1.2 ((keptSlot true out.1.1).toList ++ held) [] := by
  obtain ⟨⟨result, ctx'⟩, m'⟩ := out
  cases result with
  | error e => exact h.error e rfl
  | ok result =>
    have hgives := h.ok result rfl
    cases result with
    | none => exact hgives.holds
    | some r => exact hgives.holds

/-! ## Sessions -/

/-- The machine and the context of a session, the slots that its evaluations gave and what has
happened to the slots: the context is empty at first, or there is none; texts are evaluated in it,
and live slots that were given are retained and let go. -/
inductive Session : Machine Command → Context → List Slot → List Event → Prop
  | start {config : Config} {ctx : Context} {es : List Event}
      (hctx : ctx = none ∨ ctx = some .empty)
      (h : Run (.fresh config) es (machine config)) : Session (machine config) ctx [] es
  | eval {m : Machine Command} {ctx : Context} {given : List Slot} {es es' : List Event}
      (h : Session m ctx given es) (source : String)
      (hrun : Run m es' (m.eval library source ctx).2) :
      Session (m.eval library source ctx).2 (m.eval library source ctx).1.2
        ((keptSlot true (m.eval library source ctx).1.1).toList ++ given) (es ++ es')
  | retain {m m' : Machine Command} {ctx : Context} {given : List Slot} {es : List Event} {s : Slot}
      (h : Session m ctx given es) (hs : s ∈ given) (hm : m.retain s = .ok m') :
      Session m' ctx given es
  | unretain {m : Machine Command} {ctx : Context} {given : List Slot} {es : List Event} {s : Slot}
      (h : Session m ctx given es) (hs : s ∈ given) : Session (m.unretain s).2 ctx given es

/-- A machine with the same store holds the same if its roots were roots or held before. -/
theorem holds_roots (h : Holds st₀ m ctx held []) (hs : m'.store = m.store)
    (hroots : ∀ s ∈ m'.roots ctx, s ∈ m.roots ctx ∨ s ∈ held ∧ m.store.isLive s = true) :
    Holds st₀ m' ctx held [] := by
  refine ⟨hs ▸ h.lasts, hs ▸ h.issued, ?_, List.nodup_nil, fun s hs => absurd hs List.not_mem_nil⟩
  rw [hs]
  refine h.forest.mono fun s hmem => ?_
  simp only [List.append_nil, List.mem_append, List.mem_filter] at hmem ⊢
  exact hmem.elim (hroots s) .inr

theorem forest_of_leaves {tops : List Slot} {st : Store β} (hlive : ∀ r ∈ tops, st.isLive r = true)
    (hitems : ∀ r ∈ tops, st.items r = []) : st.Forest tops := by
  have hreach : ∀ {s}, st.Reaches tops s → s ∈ tops := fun hs => by
    refine hs.closed (fun r hr => hr) fun a ha b hb => ?_
    rw [hitems a ha] at hb
    cases hb
  refine ⟨fun s hs => hlive s (hreach hs), fun s hs => ?_, fun s t r hs ht hr _ => ?_, ?_⟩
  · rw [hitems s (hreach hs)]
    exact List.nodup_nil
  · rw [hitems s (hreach hs)] at hr
    cases hr
  · intro s hs r _ hr
    rw [hitems s (hreach hs)] at hr
    cases hr

theorem holds_machine (config : Config) (hctx : ctx = none ∨ ctx = some .empty)
    {st₀ : Store Command} (hlast : st₀.Lasts (machine config).store) :
    Holds st₀ (machine config) ctx [] [] := by
  have hroots : (machine config).roots ctx = [⟨0, 0⟩, ⟨1, 0⟩, ⟨2, 0⟩] := by
    rcases hctx with rfl | rfl <;> rfl
  refine ⟨hlast, fun s hs => absurd hs List.not_mem_nil, ?_, List.nodup_nil,
    fun s hs => absurd hs List.not_mem_nil⟩
  rw [hroots]
  refine forest_of_leaves (fun r hr => ?_) fun r hr => ?_
  · simp only [List.filter_nil, List.append_nil, List.mem_cons, List.not_mem_nil, or_false] at hr
    rcases hr with rfl | rfl | rfl <;> rfl
  · simp only [List.filter_nil, List.append_nil, List.mem_cons, List.not_mem_nil, or_false] at hr
    rcases hr with rfl | rfl | rfl <;> rfl

namespace Session

variable {m m' : Machine Command} {given : List Slot} {es es' : List Event}

theorem accounts (h : Session m ctx given es) : Store.Accounts es m.store := by
  induction h with
  | start _ hrun => exact Store.Accounts.empty.changes hrun.changes
  | eval _ _ hrun ih => exact ih.changes hrun.changes
  | retain _ _ hm ih =>
    unfold Machine.retain at hm
    split at hm
    · cases hm
      exact ih
    · cases hm
  | unretain _ _ ih => exact ih

theorem lasts (h : Session m ctx given es) (hrun : Run m es' m') (hes : Sparing (es ++ es')) :
    m.store.Lasts m'.store :=
  ⟨es, es', h.accounts, hrun.changes, hes⟩

/-- In a session the machine holds what its evaluations gave. -/
theorem holds (h : Session m ctx given es) (hes : Sparing es) :
    Holds m.store m ctx given [] := by
  have hself : ∀ {m : Machine Command} {ctx : Context} {given : List Slot} {es : List Event},
      Session m ctx given es → Sparing es → m.store.Lasts m.store := fun h hes =>
    h.lasts (.refl _) (by rwa [List.append_nil])
  induction h with
  | @start config ctx es hctx hrun => exact holds_machine config hctx (hself (.start hctx hrun) hes)
  | @eval m ctx given es es' h source hrun ih =>
    have hlast := h.lasts hrun hes
    have hheld := (minds_eval (ih hes.of_append) source hlast).kept
    exact { hheld with lasts := hself (h.eval source hrun) hes }
  | @retain m m' ctx given es s h hs hm ih =>
    unfold Machine.retain at hm
    split at hm
    · next hl =>
      cases hm
      refine holds_roots (ih hes) rfl fun t ht => ?_
      rcases mem_roots_iff.1 ht with ht | ht | ht
      · exact .inl (mem_roots_iff.2 (.inl ht))
      · rcases List.mem_insert_iff.1 ht with rfl | ht
        · exact .inr ⟨hs, hl⟩
        · exact .inl (mem_roots_iff.2 (.inr (.inl ht)))
      · exact .inl (mem_roots_iff.2 (.inr (.inr ht)))
    · cases hm
  | @unretain m ctx given es s h hs ih =>
    have hsub : (m.unretain s).2.retained ⊆ m.retained := List.filter_subset_self ..
    refine holds_roots (ih hes) rfl fun t ht => .inl (roots_subset ?_ hsub ctx ht)
    rfl

end Session

variable {m : Machine Command} {given : List Slot} {es : List Event}

/-- After every step of a session, everything that a binding or a retained slot reaches is live; and
everything is live that the result of an evaluation reaches. -/
theorem session_live (h : Session m ctx given es) (hes : Sparing es) :
    (∀ s, m.store.Reaches (m.roots ctx) s → m.store.isLive s = true) ∧
    ∀ source, let out := m.eval library source ctx
      (∃ es', Run m es' out.2) ∧ ∀ es', Run m es' out.2 → Sparing (es ++ es') →
        (∀ s, out.2.store.Reaches (out.2.roots out.1.2) s → out.2.store.isLive s = true) ∧
        ∀ r, out.1.1 = .ok (some r) →
          ∀ s, out.2.store.Reaches [r] s → out.2.store.isLive s = true := by
  have hheld := h.holds hes
  refine ⟨fun s => hheld.isLive_of_reaches_roots, fun source => ⟨?_, ?_⟩⟩
  · exact exists_run_eval library hheld.wf source ctx
  · intro es' hrun hes'
    have hends := minds_eval hheld source (h.lasts hrun hes')
    refine ⟨fun s => hends.kept.isLive_of_reaches_roots, fun r hr s hs => ?_⟩
    have hgives := hends.ok (some r) hr
    exact hgives.holds.isLive_of_reaches_held List.mem_cons_self (hgives.live r rfl) hs

/-- Two names share a list, and one of them is bound anew: the list stays for the other one. -/
theorem session_live_shared :
    Session (machine {}) (some .empty) [] [.stored ⟨0, 0⟩, .stored ⟨1, 0⟩, .stored ⟨2, 0⟩] ∧
      ((machine {}).eval library "set x ((a b)); set y x; set x 'c'" (some .empty)).1.1 =
        .ok (some ⟨8, 2⟩) ∧
      ∀ s, ((machine {}).eval library "set x ((a b)); set y x; set x 'c'"
          (some .empty)).2.store.Reaches [⟨8, 2⟩] s →
        ((machine {}).eval library "set x ((a b)); set y x; set x 'c'"
          (some .empty)).2.store.isLive s = true := by
  have hsession := Session.start (.inr rfl) (run_machine {})
  have hes := (run_machine {}).changes.sparing (by decide)
  have hresult : ((machine {}).eval library "set x ((a b)); set y x; set x 'c'"
      (some .empty)).1.1 = .ok (some ⟨8, 2⟩) := by cbv
  have hreleased : ((machine {}).eval library "set x ((a b)); set y x; set x 'c'"
      (some .empty)).2.store.tally.released = 8 := by cbv
  have hlive := (session_live hsession hes).2 "set x ((a b)); set y x; set x 'c'"
  obtain ⟨es', hrun⟩ := hlive.1
  have hes' := ((run_machine {}).trans hrun).changes.sparing (by rw [hreleased]; decide)
  exact ⟨hsession, hresult, (hlive.2 es' hrun hes').2 _ hresult⟩

/-! ## Stale handles -/

/-- A handle that an evaluation finds stale has ended in the course of that very evaluation. -/
theorem ended_of_eval_eq_invalidHandle (h : Session m ctx given es) (hes : Sparing es)
    (source : String) {es' : List Event} (hrun : Run m es' (m.eval library source ctx).2)
    (hes' : Sparing (es ++ es')) {s : Slot}
    (hs : (m.eval library source ctx).1.1 = .error (.invalidHandle s)) :
    (m.eval library source ctx).2.store.Ended s ∧ ¬ m.store.Ended s :=
  (minds_eval (h.holds hes) source (h.lasts hrun hes')).stale s hs

/-- An argument of `print` is released while the next one is evaluated. -/
theorem eval_print_rebound :
    ((machine {}).eval library "set x 'a'; print x (set x 'b')" none).1.1 =
      .error (.invalidHandle ⟨5, 0⟩) := by cbv

/-- The slot that `x` was bound to ends while its text is evaluated. -/
theorem ended_of_print_rebound :
    ((machine {}).eval library "set x 'a'; print x (set x 'b')" none).2.store.Ended ⟨5, 0⟩ ∧
      ¬ (machine {}).store.Ended ⟨5, 0⟩ := by
  have hes := (run_machine {}).changes.sparing (by decide)
  have herror : ((machine {}).eval library "set x 'a'; print x (set x 'b')" none).1.1 =
      .error (.invalidHandle ⟨5, 0⟩) := by cbv
  have hreleased : ((machine {}).eval library "set x 'a'; print x (set x 'b')"
      none).2.store.tally.released = 8 := by cbv
  obtain ⟨es', hrun⟩ : ∃ es', Run (machine {}) es'
      ((machine {}).eval library "set x 'a'; print x (set x 'b')" none).2 :=
    exists_run_eval library (arises_console {}).wf _ _
  have hes' := ((run_machine {}).trans hrun).changes.sparing (by rw [hreleased]; decide)
  exact ended_of_eval_eq_invalidHandle (.start (.inl rfl) (run_machine {})) hes _ hrun hes' herror

end SlotScript.Console
