import SlotScript.Proofs.Console.Tidiness
import SlotScript.Proofs.Machine.Texts

/-!
# Texts are accounted for

A store counts a text when it is stored and when it is released. `texts_accounted` says what the two
counters are worth. They differ from the number of slots with a text by the changes in place that
put a text where there was none and by those that take one away. In a run of operations such changes
are due to requests to overwrite a value and to what the embedding program changes by itself;
without them the counters are exact. The command line's builtins make no change in place, so after
texts have been evaluated the counters are exact.

With such a change they are not: a text that was not counted when it was put in its slot is counted
when the slot is released (`texts_miscounted`).
-/

namespace SlotScript.Console

open Machine

variable {β : Type} {call : Evaluator β} {m : Machine β} {allowed : Value β → Value β → Prop}

/-! ## The command line's builtins change nothing in place -/

theorem Moves.alters {a b : Moment β} {es : List Event} (h : Moves a es b) :
    Alters a.machine allowed b.machine := by
  induction h with
  | refl a => exact .aside rfl
  | trans _ _ ih ih' => exact ih.trans ih'
  | aside hs _ _ => exact .aside hs
  | give a x => exact .allocate _ _
  | bind _ hb hrel _ => exact (Alters.aside hb.store).trans (.releases hrel)

theorem alters_evaluateOne (hc : Behaves call) (hm : m.store.WF) (statement : List Char)
    (ctx : Context) : Alters m allowed (evaluateOne call statement ctx m).2 := by
  have hparse := (Alters.admits allowed).parse m statement
  unfold evaluateOne
  split
  · next heq => rwa [heq] at hparse
  · next expr m' heq =>
    rw [heq] at hparse
    obtain ⟨ss, hl⟩ := exists_loads_of_parse hm heq
    have hexpr : ∀ s ∈ expr, s ∈ ss := fun s hs => hl.mem_iff.2 (.root hs)
    obtain ⟨es, own, hmoves, -⟩ := hc ⟨m', ctx, (· ∈ ss)⟩ expr (sound_of_loads hm hl) hexpr
    exact hparse.trans hmoves.alters

theorem alters_runStatement (hc : Behaves call) (hm : m.store.WF) (keep : Bool)
    (statement : List Char) (ctx : Context) :
    Alters m allowed (runStatement call keep statement ctx m).2 := by
  cases hr : m.config.reclaimTemporaries with
  | false =>
    rw [runStatement_of_not_reclaim hr]
    exact alters_evaluateOne hc hm statement ctx
  | true =>
    have hopen : Alters m allowed m.openStatement.2 := .openStatement
    rw [runStatement_of_reclaim hr]
    exact (hopen.trans (alters_evaluateOne hc hm.openJournal statement ctx)).trans
      (.closeStatement _ _ _)

theorem alters_runStatements (hc : Behaves call) (hruns : Runs call) (statements : List (List Char))
    (ctx : Context) (m : Machine β) (hm : m.store.WF) :
    Alters m allowed (runStatements call statements ctx m).2 := by
  fun_induction runStatements call statements ctx m with
  | case1 ctx m => exact .aside rfl
  | case2 statement ctx m => exact alters_runStatement hc hm true statement ctx
  | case3 statement rest ctx m _ e ctx' m' heq =>
    have hrun : Alters m allowed _ := alters_runStatement hc hm false statement ctx
    rwa [heq] at hrun
  | case4 statement rest ctx m _ r ctx' m' heq ih =>
    have hrun : Alters m allowed _ := alters_runStatement hc hm false statement ctx
    obtain ⟨es, hes⟩ := exists_run_runStatement hruns hm false statement ctx
    rw [heq] at hrun hes
    exact hrun.trans (ih (hes.wf hm))

theorem alters_eval {m : Machine Command} {allowed : Value Command → Value Command → Prop}
    (hm : m.store.WF) (source : String) (ctx : Context) :
    Alters m allowed (m.eval library source ctx).2 := by
  unfold Machine.eval evalTextBy
  split
  · exact .aside rfl
  · exact alters_runStatements behaves_evaluate (runs_evaluate library) _ ctx m hm

theorem alters_machine {allowed : Value Command → Value Command → Prop} (config : Config) :
    Alters (.fresh config) allowed (machine config) := by
  have hall : ∀ (commands : List Command) (m : Machine Command), Alters m allowed
      (commands.foldl (fun m c => (m.register c.name (.builtin c.name c)).2) m) := by
    intro commands
    induction commands with
    | nil => exact fun m => .aside rfl
    | cons c commands ih => exact fun m => (Alters.register m _ _).trans (ih _)
  exact hall Command.all (.fresh config)

theorem alters_foldl_eval {allowed : Value Command → Value Command → Prop} {config : Config}
    {m : Machine Command} (h : Alters (.fresh config) allowed m)
    (inputs : List (String × Context)) :
    Alters (.fresh config) allowed
      (inputs.foldl (fun m (source, ctx) => (m.eval library source ctx).2) m) := by
  induction inputs generalizing m with
  | nil => exact h
  | cons input inputs ih => exact ih (h.trans (alters_eval h.wf input.1 input.2))

/-! ## The account -/

/-- What the counters of texts tell. After any operations on a store, together with the changes in
place they tell how many slots hold a text, and without them they do so just when these cancel out.
Every run of operations on a machine is one on its store, in which each change in place that puts a
text where there was none, or takes one away, is due to an operation of the run; if there are no
such changes, the counters tell how many slots hold a text. So they do after all evaluations with
the command line's builtins. -/
theorem texts_accounted :
    (∀ ops : List (Store.Operation β),
      let st := Store.operateAll ops
      let changes := Store.rewrites .empty ops
      st.tally.textsStored + Store.textsWritten changes =
        st.tally.textsReleased + Store.textsErased changes + st.textSlots.length ∧
      (st.CountsTexts ↔ Store.textsWritten changes = Store.textsErased changes)) ∧
    (∀ (lib : Library β) (config : Config) (ops : List (Operation β)),
      let m := operateAll lib config ops
      (∃ steps, m.store = Store.operateAll steps ∧ ∀ change ∈ Store.rewrites .empty steps,
        change.1.isText = change.2.isText ∨
          RewritesIn lib change.1 change.2 (.fresh config) ops) ∧
      ((∀ old new, RewritesIn lib old new (.fresh config) ops → old.isText = new.isText) →
        m.store.CountsTexts)) ∧
    ∀ (config : Config) (inputs : List (String × Context)),
      (inputs.foldl (fun m (source, ctx) => (m.eval library source ctx).2)
        (machine config)).store.CountsTexts := by
  refine ⟨fun ops => ?_, fun lib config ops => ⟨alters_foldl_operate lib ops _, fun heven => ?_⟩,
    fun config inputs => ?_⟩
  · have hbooks := Store.TextBooks.operateAll ops
    exact ⟨hbooks.balance, hbooks.countsTexts_iff⟩
  · have halters := alters_foldl_operate lib ops (.fresh config)
    exact (halters.mono fun old new h => h.elim id (heven old new)).countsTexts
  · exact (alters_foldl_eval (alters_machine config) inputs).countsTexts

/-- A text is overwritten by a text, and a builtin binds a second name to a text and then to the
first one: two texts have been stored, and the one that was overwritten is left. -/
theorem texts_accounted_rewritten :
    let ops : List (Operation Command) := [.register "set" (.builtin "set" .set),
      .register "x" (.text "a"), .request (.overwrite ⟨1, 0⟩ (.text "b")),
      .request (.eval "set y 'd'; set y x" none)]
    (∀ old new, RewritesIn library old new (.fresh {}) ops → old.isText = new.isText) ∧
      (operateAll library {} ops).store.CountsTexts ∧
      (operateAll library {} ops).store.tally.textsStored = 2 ∧
      (operateAll library {} ops).store.textSlots = [⟨1, 0⟩] := by
  intro ops
  have heven : ∀ old new, RewritesIn library old new (.fresh {}) ops → old.isText = new.isText := by
    rintro old new (h | h | h | h | h)
    · exact h.elim
    · exact h.elim
    · obtain ⟨s, heq, hold⟩ | hnew := h
      · cases heq
        have htext : ((operateAll library {} (ops.take 2)).store.get? ⟨1, 0⟩) =
            some (.text "a") := by
          cbv
        rw [Option.some.inj (hold.symm.trans htext)]
        rfl
      · cases hnew
    · obtain ⟨s, heq, -⟩ | hnew := h
      · cases heq
      · have hnone : (asked library (.eval "set y 'd'; set y x" none)
            (operateAll library {} (ops.take 3))).filterMap written? = [] := by cbv
        exact absurd (hnone ▸ hnew) List.not_mem_nil
    · exact h.elim
  have hstored : (operateAll library {} ops).store.tally.textsStored = 2 := by cbv
  have hslots : (operateAll library {} ops).store.textSlots = [⟨1, 0⟩] := by cbv
  obtain ⟨-, hmachine, -⟩ := @texts_accounted Command
  exact ⟨heven, (hmachine library {} ops).2 heven, hstored, hslots⟩

/-- A text that is put in the place of another value is counted only when it is released: one text
has been released then, none has been stored, and no slot is live. -/
theorem texts_miscounted :
    let m := operateAll library {} [.request (.allocate .nil),
      .request (.overwrite ⟨0, 0⟩ (.text "a")), .request (.release ⟨0, 0⟩)]
    m.store.tally.textsReleased = 1 ∧ m.store.tally.textsStored = 0 ∧ m.store.slots = [] ∧
      ¬ m.store.CountsTexts := by
  intro m
  have hreleased : m.store.tally.textsReleased = 1 := by cbv
  have hstored : m.store.tally.textsStored = 0 := by cbv
  refine ⟨hreleased, hstored, by cbv, fun hcounts => ?_⟩
  have hle := hcounts.released_le
  rw [hreleased, hstored] at hle
  exact absurd hle (by decide)

end SlotScript.Console
