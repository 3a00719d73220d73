import SlotScript.Proofs.Machine.Requests
import SlotScript.Proofs.Machine.Rest
import SlotScript.Proofs.Store.Texts

/-!
# The texts of a machine

Whatever is done with a machine comes down to operations on its store, so the texts of a machine are
accounted for as those of a store are. What matters is who changes values in place. `Alters` says
which changes there are on the way from one machine to another; of the requests only `overwrite`
makes some that bear on texts (`tracks_alters`), besides what the embedding program changes by
itself.
-/

namespace SlotScript.Machine

variable {β : Type} {call : Evaluator β} {m m' m'' : Machine β} {s : Slot}
  {allowed allowed' : Value β → Value β → Prop}

/-! ## Changes in place on the way -/

/-- Operations on the store lead from `m` to `m'`, and they change values in place only as
allowed. -/
def Alters (m : Machine β) (allowed : Value β → Value β → Prop) (m' : Machine β) : Prop :=
  ∃ ops : List (Store.Operation β), m'.store = ops.foldl Store.operate m.store ∧
    ∀ change ∈ m.store.rewrites ops, allowed change.1 change.2

namespace Alters

theorem aside (h : m'.store = m.store) : Alters m allowed m' :=
  ⟨[], h, fun _ hchange => absurd hchange List.not_mem_nil⟩

theorem mono (h : Alters m allowed m') (himp : ∀ old new, allowed old new → allowed' old new) :
    Alters m allowed' m' := by
  obtain ⟨ops, hstore, hchanges⟩ := h
  exact ⟨ops, hstore, fun change hchange => himp _ _ (hchanges change hchange)⟩

theorem trans (h : Alters m allowed m') (h' : Alters m' allowed m'') : Alters m allowed m'' := by
  obtain ⟨ops, hstore, hchanges⟩ := h
  obtain ⟨ops', hstore', hchanges'⟩ := h'
  rw [hstore] at hstore' hchanges'
  refine ⟨ops ++ ops', ?_, fun change hchange => ?_⟩
  · rw [hstore', List.foldl_append]
  · rw [Store.rewrites_append, List.mem_append] at hchange
    exact hchange.elim (hchanges change) (hchanges' change)

theorem one (op : Store.Operation β) (h : m'.store = m.store.operate op)
    (hop : ∀ change ∈ m.store.rewritten? op, allowed change.1 change.2) : Alters m allowed m' := by
  refine ⟨[op], h, fun change hchange => hop change ?_⟩
  rwa [Store.rewrites, Store.rewrites, List.append_nil, Option.mem_toList] at hchange

/-- An operation that changes nothing in place. -/
theorem apart (op : Store.Operation β) (h : m'.store = m.store.operate op)
    (hnone : m.store.rewritten? op = none) : Alters m allowed m' := by
  refine .one op h fun change hchange => ?_
  rw [hnone] at hchange
  cases hchange

theorem allocate (m : Machine β) (v : Value β) : Alters m allowed (m.allocate v).2 :=
  .apart (.client (.allocate v)) rfl rfl

theorem register (m : Machine β) (name : String) (v : Value β) :
    Alters m allowed (m.register name v).2 :=
  (Alters.allocate m v).trans (.aside rfl)

theorem put {old v : Value β} (hs : m.store.get? s = some old) (hallowed : allowed old v)
    (hstore : m'.store = m.store.put s v) : Alters m allowed m' := by
  refine .one (.client (.use s (.replace v))) (hstore.trans (Store.operate_replace hs v).symm) ?_
  rintro change hchange
  rw [Store.rewritten?, hs] at hchange
  cases hchange
  exact hallowed

theorem releases {rs : List Slot} (h : Releases m rs m') : Alters m allowed m' := by
  induction h with
  | nil m => exact .aside rfl
  | @cons m m' s v rs hs _ ih =>
    have hnone : m.store.rewritten? (.client (.use s .release)) = none := by
      rw [Store.rewritten?, hs]
      rfl
    have hone : Alters m allowed (m.vacate s v) :=
      .apart (.client (.use s .release)) (store_vacate.trans (Store.operate_release hs).symm) hnone
    exact hone.trans ih

theorem admits (allowed : Value β → Value β → Prop) :
    Admits fun (m m' : Machine β) => Alters m allowed m' where
  refl _ := .aside rfl
  trans h h' := h.trans h'
  store m v _ := .allocate m v
  releases h := .releases h

theorem overwrite (s : Slot) (v : Value β)
    (hallowed : ∀ old, m.store.get? s = some old → allowed old v) :
    Alters m allowed (m.overwrite s v).2 := by
  unfold Machine.overwrite Store.replace
  cases hs : m.store.get? s with
  | none => exact .aside store_discard
  | some old => exact .put hs (hallowed old hs) store_discard

theorem amend (s : Slot) (f : Value β → Value β)
    (hallowed : ∀ old, m.store.get? s = some old → allowed old (f old)) :
    Alters m allowed (m.settle (m.amend s f)).2 := by
  cases hs : m.store.get? s with
  | none =>
    rw [amend_of_get?_eq_none hs]
    exact .aside rfl
  | some old =>
    rw [amend_of_get? hs]
    exact .put hs (hallowed old hs) rfl

/-- A list is put in the place of a list. -/
theorem push (list item : Slot)
    (hallowed : ∀ items, allowed (.list items) (.list (items ++ [item]))) :
    Alters m allowed (m.settle (m.push list item)).2 := by
  unfold Machine.push
  split
  · exact .aside rfl
  · next v hv =>
    split
    · exact .aside rfl
    · next items hitems =>
      refine .amend list _ fun old hold => ?_
      obtain rfl : v = old := Option.some.inj ((value_eq_ok_iff.1 hv).symm.trans hold)
      cases v <;> cases hitems
      exact hallowed items

theorem openStatement : Alters m allowed m.openStatement.2 :=
  .apart .openJournal rfl rfl

theorem closeStatement (mark : Nat) (result : Option Slot) (ctx : Context) :
    Alters m allowed (m.closeStatement mark result ctx) := by
  obtain ⟨rs, m', hrel, heq, -⟩ := exists_releases_closeStatement m mark result ctx
  have hclose : Alters m allowed (m.closeJournal mark).2 := .apart (.closeJournal mark) rfl rfl
  have hnote : Alters m' allowed (m.closeStatement mark result ctx) := by
    rw [heq]
    exact .apart (.note _) rfl rfl
  exact (hclose.trans (.releases hrel)).trans hnote

end Alters

/-! ## Requests -/

/-- The value that a request puts in the place of another one. -/
def written? : Request β → Option (Value β)
  | .overwrite _ v => some v
  | _ => none

/-- The change leaves a text a text and another value another value, or one of the requests has
asked for it. -/
def AskedFor (rs : List (Request β)) (old new : Value β) : Prop :=
  old.isText = new.isText ∨ new ∈ rs.filterMap written?

theorem AskedFor.mono {rs rs' : List (Request β)} (hsub : rs ⊆ rs') (old new : Value β)
    (h : AskedFor rs old new) : AskedFor rs' old new :=
  h.imp id fun hnew => List.filterMap_subset _ hsub hnew

theorem alters_plain {r : Request β} (hr : ¬ r.Evaluates) :
    Alters m (AskedFor [r]) (answer call r m).2 := by
  cases r with
  | allocate v => exact .allocate m v
  | release s => exact (Alters.admits _).release m s
  | releaseTree s => exact (Alters.admits _).releaseTree m s
  | releaseUnreachable s ctx => exact (Alters.admits _).releaseUnreachable m ctx s
  | duplicate s => exact (Alters.admits _).duplicate call m s
  | overwrite s v => exact .overwrite s v fun _ _ => .inr (List.mem_singleton_self v)
  | push list item => exact .push list item fun _ => .inl rfl
  | retain s =>
    show Alters m _ (m.settle (m.retain s)).2
    unfold retain
    split <;> exact .aside rfl
  | parse source => exact (Alters.admits _).parse m source.toList
  | evaluate expr ctx => exact absurd trivial hr
  | argument s ctx => exact absurd trivial hr
  | eval source ctx => exact absurd trivial hr
  | _ => exact .aside rfl

/-- Of the requests that are made in an evaluation, only those to overwrite a value put a text in
the place of another value or another value in the place of a text. -/
theorem tracks_alters :
    Tracks fun (m : Machine β) rs m' => Alters m (AskedFor (rs.map Prod.fst)) m' where
  refl m := .aside rfl
  trans h h' := by
    rw [List.map_append]
    exact (h.mono (AskedFor.mono (List.subset_append_left ..))).trans
      (h'.mono (AskedFor.mono (List.subset_append_right ..)))
  parse := (Alters.admits _).parse
  statement result ctx h := (Alters.openStatement.trans h).trans (.closeStatement _ result ctx)
  deeper h := ((Alters.aside rfl).trans h).trans (.aside rfl)
  plain hr := alters_plain hr
  evaluates _ h := h.mono (AskedFor.mono (List.subset_cons_self ..))

/-! ## Operations -/

/-- The operation may put `new` in the place of `old`: it asks for that or does so by itself, or a
builtin asks for it in the course of it. -/
def Operation.Rewrites (lib : Library β) (m : Machine β) (old new : Value β) : Operation β → Prop
  | .request r =>
    (∃ s, r = .overwrite s new ∧ m.store.get? s = some old) ∨
      new ∈ (asked lib r m).filterMap written?
  | .register _ _ => False
  | .amend s f => m.store.get? s = some old ∧ f old = new

theorem alters_operate (lib : Library β) (op : Operation β) (m : Machine β) :
    Alters m (fun old new => old.isText = new.isText ∨ op.Rewrites lib m old new)
      (m.operate lib op) := by
  cases op with
  | request r =>
    have hperform := tracks_alters.perform lib r m
    cases r with
    | overwrite s v => exact .overwrite s v fun old hold => .inr (.inl ⟨s, rfl, hold⟩)
    | _ => exact hperform.mono fun old new h => h.imp id .inr
  | register name v => exact .register m name v
  | amend s f => exact .amend s f fun old hold => .inr ⟨hold, rfl⟩

/-- One of the operations may put `new` in the place of `old`. -/
def RewritesIn (lib : Library β) (old new : Value β) : Machine β → List (Operation β) → Prop
  | _, [] => False
  | m, op :: ops => op.Rewrites lib m old new ∨ RewritesIn lib old new (m.operate lib op) ops

theorem alters_foldl_operate (lib : Library β) (ops : List (Operation β)) (m : Machine β) :
    Alters m (fun old new => old.isText = new.isText ∨ RewritesIn lib old new m ops)
      (ops.foldl (operate lib) m) := by
  induction ops generalizing m with
  | nil => exact .aside rfl
  | cons op ops ih =>
    have hfirst := (alters_operate lib op m).mono fun old new h => h.imp id
      (.inl : _ → RewritesIn lib old new m (op :: ops))
    have hrest := (ih (m.operate lib op)).mono fun old new h => h.imp id
      (.inr : _ → RewritesIn lib old new m (op :: ops))
    exact hfirst.trans hrest

theorem Alters.wf {config : Config} (h : Alters (.fresh config) allowed m) : m.store.WF := by
  obtain ⟨ops, hstore, -⟩ := h
  rw [hstore]
  exact (Store.TextBooks.operateAll ops).toWF

/-- When no text is put in the place of another value, nor another value in the place of a text, the
store goes on to count its texts. -/
theorem Alters.countsTexts {config : Config}
    (h : Alters (.fresh config) (fun old new => old.isText = new.isText) m) :
    m.store.CountsTexts := by
  obtain ⟨ops, hstore, hchanges⟩ := h
  rw [hstore]
  exact (Store.TextBooks.operateAll ops).countsTexts_iff.2
    (Store.textsWritten_eq_textsErased hchanges)

end SlotScript.Machine
