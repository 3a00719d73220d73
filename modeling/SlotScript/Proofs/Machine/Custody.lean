import SlotScript.Proofs.Machine.Payloads
import SlotScript.Proofs.Machine.Requests
import SlotScript.Proofs.Machine.Rest

/-!
# Every payload is destroyed once

Payloads are handed over to a machine by requests: those of the embedding program, and those that
the builtins make while an evaluation runs. Whether it succeeds or fails, an operation is a trail on
which exactly the payloads of its requests are handed over (`exchanges_operate`), so every payload
can be followed from the request that brought it to its end (`payloads_destroyed_once`).

The steps of a trail are what the code does to values, so nothing needs to be known about the
builtins. What is left to show of a request that is refused is that the values are where they were:
a trail that hands over nothing and keeps all values has destroyed nothing (`Exchanges.declines`).

The embedding program may change a value in place, and with it a payload. The old payload then
counts as taken back and the new one as handed over; no destructor runs.
-/

namespace SlotScript

variable {β : Type}

/-- The payload that a request hands over. -/
def Request.payload : Request β → List Int
  | .allocate v => v.doomed?.toList
  | .overwrite _ v => v.doomed?.toList
  | _ => []

namespace Value

theorem doomed?_eq_some_iff {v : Value β} {id : Int} :
    v.doomed? = some id ↔ v = .host (.owned id true) := by
  unfold doomed?
  split
  · simp
  · next hne => simpa using hne id

end Value

namespace Machine

/-! ## Requests without evaluation -/

variable {call : Evaluator β} {m m' : Machine β}

/-- What is read from a text or copied has no destructor. -/
theorem admits_exchanges : Admits fun (m m' : Machine β) => Exchanges m [] [] m' where
  refl m := .refl m
  trans h h' := h.trans h'
  store m v hv := by
    have hstore := Exchanges.allocate m v
    rwa [hv] at hstore
  releases h := .releases h

theorem exchanges_overwrite (s : Slot) (v : Value β) :
    Exchanges m v.doomed?.toList [] (m.overwrite s v).2 := by
  unfold overwrite Store.replace
  cases hs : m.store.get? s with
  | none => exact .one (.refuse hs v)
  | some old => exact .one (.overwrite hs v)

theorem exchanges_push (list item : Slot) : Exchanges m [] [] (m.settle (m.push list item)).2 := by
  unfold push
  split
  · exact .refl m
  · next v hv =>
    split
    · exact .refl m
    · next items hitems =>
      have hs := value_eq_ok_iff.1 hv
      rw [amend_of_get? hs]
      cases v <;> cases hitems
      exact .one (.amend hs _)

theorem exchanges_retain (s : Slot) : Exchanges m [] [] (m.settle (m.retain s)).2 := by
  unfold retain
  split
  · exact .aside rfl rfl rfl
  · exact .refl m

theorem exchanges_openStatement : Exchanges m [] [] m.openStatement.2 :=
  .aside rfl rfl rfl

theorem exchanges_closeStatement (mark : Nat) (result : Option Slot) (ctx : Context) :
    Exchanges m [] [] (m.closeStatement mark result ctx) := by
  obtain ⟨rs, m', hrel, heq, -⟩ := exists_releases_closeStatement m mark result ctx
  have hclose : Exchanges m [] [] (m.closeJournal mark).2 := .aside rfl rfl rfl
  have hnote : Exchanges m' [] [] (m.closeStatement mark result ctx) := by
    rw [heq]
    exact .aside (Store.places_note _) (Store.vacant_note _) rfl
  exact (hclose.trans (.releases hrel)).trans hnote

/-! ## Evaluations -/

theorem exchanges_plain {r : Request β} (hr : ¬ r.Evaluates) :
    Exchanges m r.payload [] (answer call r m).2 := by
  cases r with
  | allocate v => exact .allocate m v
  | release s => exact admits_exchanges.release m s
  | releaseTree s => exact admits_exchanges.releaseTree m s
  | releaseUnreachable s ctx => exact admits_exchanges.releaseUnreachable m ctx s
  | duplicate s => exact admits_exchanges.duplicate call m s
  | overwrite s v => exact exchanges_overwrite s v
  | push list item => exact exchanges_push list item
  | retain s => exact exchanges_retain s
  | unretain s => exact .aside rfl rfl rfl
  | assignGlobal name s => exact .aside rfl rfl rfl
  | removeGlobal name => exact .aside rfl rfl rfl
  | parse source => exact admits_exchanges.parse m source.toList
  | evaluate expr ctx => exact absurd trivial hr
  | argument s ctx => exact absurd trivial hr
  | eval source ctx => exact absurd trivial hr
  | print line => exact .aside rfl rfl (by simp [destroyed, answer, notify])
  | handOver s => exact .aside rfl rfl (by simp [destroyed, answer, notify])
  | _ => exact .refl m

/-- What is handed over in the course of an evaluation are the payloads of its requests. -/
theorem tracks_exchanges :
    Tracks fun (m : Machine β) rs m' =>
      Exchanges m ((rs.map Prod.fst).flatMap Request.payload) [] m' where
  refl m := .refl m
  trans h h' := by
    rw [List.map_append, List.flatMap_append]
    exact h.trans h'
  parse := admits_exchanges.parse
  statement {m rs m'} result ctx h := by
    have hall := (exchanges_openStatement.trans h).trans
      (exchanges_closeStatement m.store.journal.size result ctx)
    simpa only [List.nil_append, List.append_nil] using hall
  deeper {m rs m'} h := by
    have hdown : Exchanges m [] [] { m with depth := m.depth + 1 } := .aside rfl rfl rfl
    have hup : Exchanges m' [] [] { m' with depth := m'.depth - 1 } := .aside rfl rfl rfl
    have hall := (hdown.trans h).trans hup
    simpa only [List.nil_append, List.append_nil] using hall
  plain hr := by
    rw [List.map_singleton, List.flatMap_singleton]
    exact exchanges_plain hr
  evaluates {r m rs m'} hr h := by
    have hnone : r.payload = [] := by
      cases r <;> first | rfl | exact hr.elim
    rw [List.map_cons, List.flatMap_cons, hnone]
    exact h

theorem exchanges_perform (lib : Library β) (r : Request β) (m : Machine β) :
    Exchanges m ((r :: asked lib r m).flatMap Request.payload) [] (m.perform lib r).2 :=
  tracks_exchanges.perform lib r m

/-! ## Operations -/

namespace Operation

/-- The payloads that an operation hands over, those that builtins hand over in the course of it
included. A change in place hands over a payload that was not there before. -/
def given (lib : Library β) (m : Machine β) : Operation β → List Int
  | .request r => (r :: asked lib r m).flatMap Request.payload
  | .register _ v => v.doomed?.toList
  | .amend s f =>
    match m.store.get? s with
    | some v => (Step.amend s v (f v)).given
    | none => []

/-- The payloads that an operation takes back: those that a change in place puts another value
over. -/
def withdrawn (m : Machine β) : Operation β → List Int
  | .amend s f =>
    match m.store.get? s with
    | some v => (Step.amend s v (f v)).withdrawn
    | none => []
  | _ => []

/-- An operation that changes no payload in place. -/
def KeepsPayloads : Operation β → Prop
  | .amend _ f => ∀ v, (f v).doomed? = v.doomed?
  | _ => True

theorem KeepsPayloads.withdrawn_eq_nil {op : Operation β} (h : op.KeepsPayloads) (m : Machine β) :
    op.withdrawn m = [] := by
  cases op with
  | amend s f =>
    rw [withdrawn]
    split
    · next v _ => exact if_pos (h v)
    · rfl
  | _ => rfl

end Operation

theorem exchanges_operate (lib : Library β) (op : Operation β) (m : Machine β) :
    Exchanges m (op.given lib m) (op.withdrawn m) (m.operate lib op) := by
  cases op with
  | request r => exact exchanges_perform lib r m
  | register name v => exact (Exchanges.allocate m v).trans_nil (.aside rfl rfl rfl)
  | amend s f =>
    rw [operate, Operation.given, Operation.withdrawn]
    cases hs : m.store.get? s with
    | none =>
      rw [amend_of_get?_eq_none hs]
      exact .refl m
    | some v =>
      rw [amend_of_get? hs]
      exact .one (.amend hs (f v))

/-- The payloads that operations hand over, in order. -/
def givenIn (lib : Library β) (m : Machine β) : List (Operation β) → List Int
  | [] => []
  | op :: ops => op.given lib m ++ givenIn lib (m.operate lib op) ops

/-- The payloads that operations take back, in order. -/
def withdrawnIn (lib : Library β) (m : Machine β) : List (Operation β) → List Int
  | [] => []
  | op :: ops => op.withdrawn m ++ withdrawnIn lib (m.operate lib op) ops

theorem exchanges_foldl_operate (lib : Library β) (ops : List (Operation β)) (m : Machine β) :
    Exchanges m (givenIn lib m ops) (withdrawnIn lib m ops) (ops.foldl (operate lib) m) := by
  induction ops generalizing m with
  | nil => exact .refl m
  | cons op ops ih => exact (exchanges_operate lib op m).trans (ih _)

theorem withdrawnIn_of_keepsPayloads {lib : Library β} {ops : List (Operation β)}
    (h : ∀ op ∈ ops, op.KeepsPayloads) (m : Machine β) : withdrawnIn lib m ops = [] := by
  induction ops generalizing m with
  | nil => rfl
  | cons op ops ih =>
    rw [withdrawnIn, (h op List.mem_cons_self).withdrawn_eq_nil,
      ih fun op hop => h op (List.mem_cons_of_mem _ hop)]
    rfl

/-! ## Operations that fail -/

/-- The answer refuses what was asked for. Evaluations are left out: one that fails has been going
on before. -/
def Refuses : (r : Request β) → r.Reply → Prop
  | .release _, reply => ∃ e, reply = .error e
  | .duplicate _, reply => ∃ e, reply = .error e
  | .value _, reply => ∃ e, reply = .error e
  | .overwrite _ _, reply => ∃ e, reply = .error e
  | .push _ _, reply => ∃ e, reply = .error e
  | .retain _, reply => ∃ e, reply = .error e
  | .parse _, reply => ∃ e, reply = .error e
  | .render _, reply => ∃ e, reply = .error e
  | .renderAll _, reply => ∃ e, reply = .error e
  | _, _ => False

/-- The values are as they were, and only the payload that came with the request was destroyed. -/
structure Declines (payload : List Int) (m m' : Machine β) : Prop where
  get? : ∀ s, m'.store.get? s = m.store.get? s
  destroyed : m'.destroyed = m.destroyed ++ payload

theorem Declines.refl (m : Machine β) : Declines [] m m :=
  ⟨fun _ => rfl, (List.append_nil _).symm⟩

theorem settle_of_error {r : Except Error (Machine β)} {e : Error}
    (h : (m.settle r).1 = .error e) : (m.settle r).2 = m := by
  cases r with
  | error e' => rfl
  | ok m' => cases h

/-- Nothing is destroyed on a way that hands over nothing and ends with the values it began with. -/
theorem Exchanges.declines (h : Exchanges m [] [] m') (hm : m.store.WF)
    (hget : ∀ s, m'.store.get? s = m.store.get? s) : Declines [] m m' := by
  obtain ⟨lost, hlost, hperm⟩ := h.perm hm
  have hsame : m.doomed.Perm m'.doomed := by
    rw [doomed_eq, doomed_eq]
    exact Store.payloads_perm_of_get?_eq hget
  have hnil : lost = [] := by
    have hlength := hperm.length_eq
    simp only [List.length_append, hsame.length_eq, List.length_nil] at hlength
    exact List.eq_nil_of_length_eq_zero (by omega)
  exact ⟨hget, hnil ▸ hlost⟩

theorem answer_duplicate_of_error {s : Slot} {e : Error}
    (h : (answer call (.duplicate s) m).1 = .error e) : (answer call (.duplicate s) m).2 = m := by
  simp only [answer] at h ⊢
  cases hd : m.duplicate s with
  | error e' => rfl
  | ok copy =>
    rw [hd] at h
    cases h

theorem declines_overwrite {s : Slot} {v : Value β} {e : Error}
    (h : (m.overwrite s v).1 = .error e) :
    Declines v.doomed?.toList m (m.overwrite s v).2 := by
  unfold overwrite Store.replace at h ⊢
  cases hs : m.store.get? s with
  | none => exact ⟨fun t => by rw [store_discard], destroyed_discard⟩
  | some old =>
    rw [hs] at h
    cases h

theorem declines_parse {source : List Char} {e : Error} (hm : m.store.WF)
    (h : (m.parse source).1 = .error e) : Declines [] m (m.parse source).2 :=
  (admits_exchanges.parse m source).declines hm (undoes_of_parse hm (Prod.ext h rfl)).get?

/-- A request that is refused leaves every value where it is. -/
theorem declines_perform (lib : Library β) {r : Request β} (hm : m.store.WF)
    (h : Refuses r (m.perform lib r).1) : Declines r.payload m (m.perform lib r).2 := by
  have hsame : ∀ {n : Machine β}, n = m → Declines [] m n := fun h => h ▸ .refl m
  cases r with
  | release s =>
    obtain ⟨e, he⟩ := h
    exact hsame (settle_of_error he)
  | duplicate s =>
    obtain ⟨e, he⟩ := h
    exact hsame (answer_duplicate_of_error he)
  | overwrite s v =>
    obtain ⟨e, he⟩ := h
    exact declines_overwrite he
  | push list item =>
    obtain ⟨e, he⟩ := h
    exact hsame (settle_of_error he)
  | retain s =>
    obtain ⟨e, he⟩ := h
    exact hsame (settle_of_error he)
  | parse source =>
    obtain ⟨e, he⟩ := h
    exact declines_parse hm he
  | value s => exact .refl m
  | render s => exact .refl m
  | renderAll expr => exact .refl m
  | _ => exact h.elim

theorem perform_duplicate_of_owned (lib : Library β) {s : Slot} {id : Int} {destructor : Bool}
    (h : m.store.get? s = some (.host (.owned id destructor))) :
    m.perform lib (.duplicate s) = (.error .ownedCopy, m) := by
  simp [perform, answer, duplicate, value, Store.get, h, Value.copy, Except.map]

/-! ## The end of a machine -/

/-- The slots whose values have a destructor, with their payloads, by place. -/
def wards (m : Machine β) : List (Slot × Int) :=
  m.contents.filterMap fun (s, v) => v.doomed?.map (s, ·)

theorem doomed_eq_map_wards : m.doomed = m.wards.map Prod.snd := by
  rw [wards, List.map_filterMap, doomed]
  refine List.filterMap_congr fun held _ => ?_
  rw [Option.map_map]
  exact Option.map_id'.symm

theorem mem_wards_iff {s : Slot} {id : Int} :
    (s, id) ∈ m.wards ↔ m.store.get? s = some (.host (.owned id true)) := by
  simp only [wards, contents, List.mem_filterMap, Option.map_eq_some_iff, Prod.exists]
  constructor
  · rintro ⟨_, v, ⟨t, -, _, hget, rfl, rfl⟩, _, hid, rfl, rfl⟩
    rw [hget, Value.doomed?_eq_some_iff.1 hid]
  · intro hget
    exact ⟨s, _, ⟨s, Store.mem_slots_iff.2 (Store.isLive_iff.2 ⟨_, hget⟩), _, hget, rfl⟩, id,
      Value.doomed?_eq_some_iff.2 rfl, rfl⟩

theorem pairwise_wards (m : Machine β) : m.wards.Pairwise (·.1.index < ·.1.index) := by
  have hcontents : m.contents.Pairwise (·.1.index < ·.1.index) := by
    refine List.Pairwise.filterMap _ (fun s t hlt a ha b hb => ?_) (Store.pairwise_slots m.store)
    obtain ⟨v, -, rfl⟩ := Option.map_eq_some_iff.1 ha
    obtain ⟨w, -, rfl⟩ := Option.map_eq_some_iff.1 hb
    exact hlt
  refine List.Pairwise.filterMap _ (fun held held' hlt a ha b hb => ?_) hcontents
  obtain ⟨id, -, rfl⟩ := Option.map_eq_some_iff.1 ha
  obtain ⟨id', -, rfl⟩ := Option.map_eq_some_iff.1 hb
  exact hlt

theorem destroyed_restart (session : Session) :
    session.restart.machine.destroyed = session.machine.doomed := by
  simp [Session.restart, destroyed, List.filterMap_map]

/-! ## The account -/

/-- Every payload is destroyed once. The operations are a trail of steps on which the payloads of
their requests are handed over. At every moment of it, what was handed over is held by a live slot
or has been destroyed, by the step that let go of its value, unless a change in place took it back.
The end of the machine destroys what is left, by place. A request that fails only destroys what its
trail lets go of; one that is refused destroys nothing but what came with it, and an owned value has
no copy. -/
theorem payloads_destroyed_once (lib : Library β) (config : Config) (ops : List (Operation β)) :
    let start : Machine β := .fresh config
    let last := operateAll lib config ops
    (∃ steps, Trail start steps last ∧ steps.flatMap Step.given = givenIn lib start ops ∧
      ∀ before after, steps = before ++ after → ∃ m, Trail start before m ∧ Trail m after last ∧
        m.destroyed = before.flatMap Step.destroyed ∧
        (before.flatMap Step.given).Perm
          (m.doomed ++ m.destroyed ++ before.flatMap Step.withdrawn) ∧
        ((before.flatMap Step.given).Nodup → (m.doomed ++ m.destroyed).Nodup) ∧
        ((∀ op ∈ ops, op.KeepsPayloads) → before.flatMap Step.withdrawn = [])) ∧
    (givenIn lib start ops).Perm (last.destroyed ++ last.doomed ++ withdrawnIn lib start ops) ∧
    ((∀ op ∈ ops, op.KeepsPayloads) → withdrawnIn lib start ops = []) ∧
    (last.doomed = last.wards.map Prod.snd ∧ last.wards.Pairwise (·.1.index < ·.1.index) ∧
      ∀ s id, (s, id) ∈ last.wards ↔ last.store.get? s = some (.host (.owned id true))) ∧
    (∀ session : Session, session.restart.machine.destroyed = session.machine.doomed) ∧
    (∀ r,
      Exchanges last ((r :: asked lib r last).flatMap Request.payload) []
        (last.perform lib r).2 ∧
      (Refuses r (last.perform lib r).1 → Declines r.payload last (last.perform lib r).2)) ∧
    ∀ s id destructor, last.store.get? s = some (.host (.owned id destructor)) →
      last.perform lib (.duplicate s) = (.error .ownedCopy, last) := by
  intro start last
  have hwf : start.store.WF := .empty
  obtain ⟨steps, htrail, hgiven, hwithdrawn⟩ := exchanges_foldl_operate lib ops start
  have hmoment : ∀ {before m}, Trail start before m →
      m.destroyed = before.flatMap Step.destroyed ∧
        (before.flatMap Step.given).Perm
          (m.doomed ++ m.destroyed ++ before.flatMap Step.withdrawn) := by
    intro before m h
    have hdestroyed : m.destroyed = before.flatMap Step.destroyed := h.destroyed
    refine ⟨hdestroyed, ?_⟩
    rw [hdestroyed]
    exact h.perm hwf
  refine ⟨⟨steps, htrail, hgiven, ?_⟩, ?_, fun hkeep => withdrawnIn_of_keepsPayloads hkeep start,
    ⟨doomed_eq_map_wards, pairwise_wards last, fun _ _ => mem_wards_iff⟩, destroyed_restart,
    fun r => ⟨exchanges_perform lib r last, declines_perform lib (htrail.wf hwf)⟩,
    fun s id destructor => perform_duplicate_of_owned lib⟩
  · rintro before after rfl
    obtain ⟨m, hbefore, hafter⟩ := htrail.split
    obtain ⟨hdestroyed, hperm⟩ := hmoment hbefore
    refine ⟨m, hbefore, hafter, hdestroyed, hperm, fun hnodup => ?_, fun hkeep => ?_⟩
    · exact (List.nodup_append.1 (hperm.nodup_iff.1 hnodup)).1
    · -- Nothing is withdrawn on the whole trail, so nothing is on its first part.
      rw [withdrawnIn_of_keepsPayloads hkeep, List.flatMap_append] at hwithdrawn
      exact (List.append_eq_nil_iff.1 hwithdrawn).1
  · have hall := (hmoment htrail).2
    rw [hgiven, hwithdrawn] at hall
    exact hall.trans (List.perm_append_comm.append_right _)

/-- Builtins make objects: the first one is reclaimed after its statement, the second one is the
result and is released, a second time in vain. The third one is overwritten by the fourth, which has
no copy, the fifth one finds no slot, and the sixth one gets the place of the second, before the
fourth. -/
theorem payloads_destroyed_once_made :
    let lib : Library Int := fun id _ => Routine.give (.host (.owned id true))
    let ops : List (Operation Int) := [.register "f" (.builtin "f" 1),
      .register "g" (.builtin "g" 2),
      .request (.eval "f; g" none), .request (.allocate (.host (.owned 3 true))),
      .request (.overwrite ⟨3, 2⟩ (.host (.owned 4 true))),
      .request (.overwrite ⟨9, 0⟩ (.host (.owned 5 true))), .request (.release ⟨2, 1⟩),
      .request (.release ⟨2, 1⟩), .request (.allocate (.host (.owned 6 true)))]
    let last := operateAll lib {} ops
    (∀ op ∈ ops, op.KeepsPayloads) ∧ givenIn lib (.fresh {}) ops = [1, 2, 3, 4, 5, 6] ∧
      last.destroyed = [1, 3, 5, 2] ∧ last.doomed = [6, 4] ∧
      (givenIn lib (.fresh {}) ops).Perm (last.destroyed ++ last.doomed) ∧
      last.perform lib (.duplicate ⟨3, 2⟩) = (.error .ownedCopy, last) := by
  intro lib ops last
  have hkeep : ∀ op ∈ ops, op.KeepsPayloads := by simp [ops, Operation.KeepsPayloads]
  obtain ⟨-, hperm, hnone, -, -, -, hcopy⟩ := payloads_destroyed_once lib {} ops
  rw [hnone hkeep, List.append_nil] at hperm
  exact ⟨hkeep, by cbv, by cbv, by cbv, hperm, hcopy ⟨3, 2⟩ 4 true (by cbv)⟩

end Machine

end SlotScript
