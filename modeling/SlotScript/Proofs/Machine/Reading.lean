import SlotScript.Proofs.Machine.Acceptance
import SlotScript.Proofs.Machine.Rest
import SlotScript.Proofs.Store.Counters

/-!
# Reading is all or nothing

What a text is read into depends on the text and the depth limit alone: `Term.readWithin` gives the
terms or the error, and a machine's `parse` follows it whatever its store is like
(`parse_all_or_nothing`). When there are terms, the expression that is returned stands for them,
every node of it in a slot of its own that was not live before, and nothing else becomes live. When
there is an error, the slots are as they were.

The places of an expression are listed in the order in which they are stored, the items of a list in
front of the list (`Store.slotsOfAll`), so loading stores in exactly these slots
(`stores_slotsOfAll`) and everything about them follows from what storing does.
-/

namespace SlotScript

open SlotScript.Syntax (Term)

variable {β : Type}

/-! ## What a text says -/

namespace Syntax.Term

/-- The terms of a text, whose groups have to nest less deep than the limit. -/
def readWithin (limit : Nat) (source : List Char) : Except Error (List Term) :=
  match limit with
  | 0 => .error (.tooDeep 0)
  | room + 1 =>
    match read source with
    | .error e => .error (.unterminated e)
    | .ok terms => if depthAll terms ≤ room then .ok terms else .error (.tooDeep (room + 1))

end Syntax.Term

/-! ## The places of an expression -/

namespace Tree

mutual

/-- The number of leaves and lists in a tree. -/
def nodes : Tree β → Nat
  | .leaf _ => 1
  | .node items => nodesAll items + 1

def nodesAll : List (Tree β) → Nat
  | [] => 0
  | t :: rest => t.nodes + nodesAll rest

end

end Tree

namespace Store

mutual

/-- The slots in which a tree stands, one entry for each node: the items of a list in front of the
list. -/
def slotsOf (st : Store β) : Slot → Tree β → List Slot
  | s, .leaf _ => [s]
  | s, .node trees => st.slotsOfAll (st.items s) trees ++ [s]

def slotsOfAll (st : Store β) : List Slot → List (Tree β) → List Slot
  | s :: rest, t :: trees => st.slotsOf s t ++ st.slotsOfAll rest trees
  | _, _ => []

end

variable {st st' : Store β}

mutual

theorem slotsOf_mono (h : ∀ s v, st.get? s = some v → st'.get? s = some v) :
    ∀ {t : Tree β} {s : Slot}, st.Shows s t → st'.slotsOf s t = st.slotsOf s t
  | .leaf _, _, _ => rfl
  | .node _, s, ⟨items, hget, hall⟩ => by
    rw [slotsOf, slotsOf, items_of_get? hget, items_of_get? (h s _ hget)]
    exact congrArg (· ++ [s]) (slotsOfAll_mono h hall)

/-- A store that keeps the values of another one has its expressions in the same slots. -/
theorem slotsOfAll_mono (h : ∀ s v, st.get? s = some v → st'.get? s = some v) :
    ∀ {trees : List (Tree β)} {ss : List Slot}, st.ShowsAll ss trees →
      st'.slotsOfAll ss trees = st.slotsOfAll ss trees
  | [], _, rfl => rfl
  | _ :: _, _, ⟨_, _, rfl, hs, hrest⟩ =>
    congrArg₂ (· ++ ·) (slotsOf_mono h hs) (slotsOfAll_mono h hrest)

end

mutual

theorem length_slotsOf : ∀ {t : Tree β} {s : Slot}, st.Shows s t →
    (st.slotsOf s t).length = t.nodes
  | .leaf _, _, _ => rfl
  | .node _, s, ⟨items, hget, hall⟩ => by
    rw [slotsOf, items_of_get? hget, List.length_append, Tree.nodes]
    exact congrArg (· + 1) (length_slotsOfAll hall)

theorem length_slotsOfAll : ∀ {trees : List (Tree β)} {ss : List Slot}, st.ShowsAll ss trees →
    (st.slotsOfAll ss trees).length = Tree.nodesAll trees
  | [], _, rfl => rfl
  | _ :: _, _, ⟨_, _, rfl, hs, hrest⟩ => by
    rw [slotsOfAll, List.length_append, length_slotsOf hs, length_slotsOfAll hrest, Tree.nodesAll]

end

end Store

namespace Machine

variable {m m' : Machine β} {s : Slot} {ss : List Slot}

/-! ## Storing in fresh slots -/

namespace Stores

theorem nodup (h : Stores m ss m') (hm : m.store.WF) : ss.Nodup := by
  induction h with
  | nil => exact List.nodup_nil
  | snoc h v ih =>
    refine ih.append (List.nodup_singleton _) (List.disjoint_singleton.2 fun hmem => ?_)
    exact ne_of_isLive (h.isLive_of_mem hm hmem) (h.wf hm).get?_nextSlot rfl

theorem isLive_iff (h : Stores m ss m') (hm : m.store.WF) :
    m'.store.isLive s = true ↔ m.store.isLive s = true ∨ s ∈ ss := by
  by_cases hs : s ∈ ss
  · simp [hs, h.isLive_of_mem hm hs]
  · simp [hs, Store.isLive, h.get?_of_notMem hm hs]

/-- As many slots become live as are stored in. -/
theorem length_slots (h : Stores m ss m') (hm : m.store.WF) :
    m'.store.slots.length = m.store.slots.length + ss.length := by
  have hfresh : m.store.slots.Disjoint ss := by
    intro a ha hs
    exact ne_of_isLive (Store.mem_slots_iff.1 ha) (h.get?_eq_none_of_mem hm hs) rfl
  have hperm : m'.store.slots.Perm (m.store.slots ++ ss) := by
    refine (List.perm_ext_iff_of_nodup (Store.nodup_slots _)
      ((Store.nodup_slots _).append (h.nodup hm) hfresh)).2 fun a => ?_
    rw [List.mem_append, Store.mem_slots_iff, Store.mem_slots_iff, h.isLive_iff hm]
  rw [hperm.length_eq, List.length_append]

end Stores

/-- A list of what stands in some slots stands in these and its own. -/
theorem slotsOf_allocate_list (hm : m.store.WF) {trees : List (Tree β)}
    (h : m.store.ShowsAll ss trees) :
    (m.allocate (.list ss)).2.store.slotsOf m.store.nextSlot (.node trees) =
      m.store.slotsOfAll ss trees ++ [m.store.nextSlot] := by
  have hlist := Stores.snoc (.nil m) (Value.list ss)
  have hget : (m.allocate (.list ss)).2.store.get? m.store.nextSlot = some (.list ss) := by
    rw [Stores.get?_allocate hm, if_pos rfl]
  rw [Store.slotsOf, Store.items_of_get? hget]
  exact congrArg (· ++ _) (Store.slotsOfAll_mono (fun a w ha => hlist.get?_of_get? hm ha) h)

mutual

/-- A term is loaded into the slots in which its tree stands. -/
theorem stores_slotsOf : ∀ (t : Term) {m m' : Machine β} {room : Nat} {s : Slot}, m.store.WF →
    m.load room t = (.ok s, m') → Stores m (m'.store.slotsOf s t.tree) m'
  | .number _, m, m', room, s, hm, h | .text _, m, m', room, s, hm, h
  | .symbol _, m, m', room, s, hm, h => by
    rw [load] at h
    cases h
    exact .snoc (.nil m) _
  | .list items, m, m', 0, s, hm, h => by
    rw [load] at h
    cases h
  | .list items, m, m', room + 1, s, hm, h => by
    rw [load] at h
    split at h
    · cases h
    · next slots m₁ hload =>
      cases h
      obtain ⟨new, ss, hnew, -, hshows, hall⟩ := showsAll_of_loadAll items hm hload
      obtain rfl : slots = new := hnew
      have hstores := (stores_slotsOfAll items hm hload rfl).snoc (.list slots)
      rwa [← slotsOf_allocate_list (hall.wf hm) hshows] at hstores

theorem stores_slotsOfAll : ∀ (terms : List Term) {m m' : Machine β} {room : Nat}
    {before slots new : List Slot}, m.store.WF → m.loadAll room before terms = (.ok slots, m') →
      slots = before.reverse ++ new → Stores m (m'.store.slotsOfAll new (Term.trees terms)) m'
  | [], m, m', room, before, slots, new, hm, h, hnew => by
    rw [loadAll] at h
    cases h
    obtain rfl : new = [] := List.self_eq_append_right.1 hnew
    exact .nil m
  | t :: terms, m, m', room, before, slots, new, hm, h, hnew => by
    rw [loadAll] at h
    split at h
    · cases h
    · next s m₁ hload =>
      have hterm := stores_slotsOf t hm hload
      have hwf := hterm.wf hm
      obtain ⟨rest, ss, hrest, -, -, hafter⟩ := showsAll_of_loadAll terms hwf h
      obtain rfl : new = s :: rest := by
        rw [hrest, List.reverse_cons, List.append_assoc] at hnew
        exact (List.append_cancel_left hnew).symm
      have hsame := Store.slotsOf_mono (fun a w ha => hafter.get?_of_get? hwf ha)
        (shows_of_load t hm hload).2
      show Stores m (_ ++ _) m'
      rw [hsame]
      exact hterm.trans (stores_slotsOfAll terms hwf h hrest)

end

/-! ## Reading a text -/

variable {source : List Char} {expr : List Slot}

theorem parse_of_readWithin_eq_error {e : Error}
    (h : Term.readWithin m.config.maxDepth source = .error e) :
    (m.parse source).1 = .error e := by
  cases hroom : m.config.maxDepth with
  | zero =>
    simp only [Term.readWithin, hroom] at h
    cases h
    simp only [parse, hroom]
  | succ room =>
    cases hread : Term.read source with
    | error e' =>
      simp only [Term.readWithin, hroom, hread] at h
      cases h
      simp only [parse, hroom, hread]
    | ok terms =>
      simp only [Term.readWithin, hroom, hread] at h
      by_cases hdeep : Term.depthAll terms ≤ room
      · rw [if_pos hdeep] at h
        cases h
      · rw [if_neg hdeep] at h
        cases h
        have hlt : room < Tree.depthAll (Term.trees terms : List (Tree β)) := by
          rw [Term.depthAll_trees]
          exact Nat.lt_of_not_le hdeep
        obtain ⟨m', hload⟩ := exists_loadAll_eq_tooDeep terms m [] hlt
        simp only [parse, hroom, hread, hload]

theorem exists_parse_of_readWithin_eq_ok {terms : List Term}
    (h : Term.readWithin m.config.maxDepth source = .ok terms) :
    ∃ room expr m', m.loadAll room [] terms = (.ok expr, m') ∧ m.parse source = (.ok expr, m') := by
  cases hroom : m.config.maxDepth with
  | zero =>
    simp only [Term.readWithin, hroom] at h
    cases h
  | succ room =>
    cases hread : Term.read source with
    | error e =>
      simp only [Term.readWithin, hroom, hread] at h
      cases h
    | ok terms' =>
      simp only [Term.readWithin, hroom, hread] at h
      by_cases hle : Term.depthAll terms' ≤ room
      · rw [if_pos hle] at h
        cases h
        rw [← Term.depthAll_trees (β := β)] at hle
        obtain ⟨expr, m', hload⟩ := exists_loadAll_eq terms m [] hle
        exact ⟨room, expr, m', hload, by simp only [parse, hroom, hread, hload]⟩
      · rw [if_neg hle] at h
        cases h

/-- `m'` has the slots that `m` has, with the same values, and the same bindings, retained slots and
depth. -/
structure Extends (m m' : Machine β) : Prop where
  get? : ∀ s v, m.store.get? s = some v → m'.store.get? s = some v
  globals : m'.globals = m.globals
  retained : ∀ s, s ∈ m'.retained ↔ s ∈ m.retained
  depth : m'.depth = m.depth

/-- `m'` has an expression besides what `m` has. Every node of it stands in a slot of its own; these
slots are new, and they are all that has become live. -/
structure Gains (m : Machine β) (expr : List Slot) (trees : List (Tree β)) (m' : Machine β) :
    Prop where
  shows : m'.store.ShowsAll expr trees
  nodup : (m'.store.slotsOfAll expr trees).Nodup
  fresh : ∀ s ∈ m'.store.slotsOfAll expr trees, m.store.isLive s = false
  isLive_iff : ∀ s, m'.store.isLive s = true ↔
    m.store.isLive s = true ∨ s ∈ m'.store.slotsOfAll expr trees
  length : m'.store.slots.length = m.store.slots.length + Tree.nodesAll trees

theorem Stores.extends (h : Stores m ss m') (hm : m.store.WF) : Extends m m' :=
  ⟨fun _ _ hs => h.get?_of_get? hm hs, h.globals, fun _ => by rw [h.retained], h.run.depth⟩

/-- What cannot be read leaves live slots retained, and there are no other ones. -/
theorem Undoes.extends (h : Undoes m m') (hm : Held m) : Extends m m' := by
  obtain ⟨es, hrun, -⟩ := h.run
  refine ⟨fun s v hs => (h.get? s).trans hs, h.globals, fun s => ?_, hrun.depth⟩
  exact ⟨fun hs => h.retained hs, fun hs => h.mem_retained s hs (hm.live s hs)⟩

theorem gains_of_loadAll {terms : List Term} {room : Nat} (hm : m.store.WF)
    (h : m.loadAll room [] terms = (.ok expr, m')) : Gains m expr (Term.trees terms) m' := by
  obtain ⟨new, ss, hnew, -, hshows, -⟩ := showsAll_of_loadAll terms hm h
  obtain rfl : expr = new := hnew
  have hstores := stores_slotsOfAll terms hm h rfl
  refine ⟨hshows, hstores.nodup hm, fun s hs => ?_, fun s => hstores.isLive_iff hm, ?_⟩
  · exact Store.isLive_eq_false_iff.2 (hstores.get?_eq_none_of_mem hm hs)
  · rw [hstores.length_slots hm, Store.length_slotsOfAll hshows]

/-- Whenever something can be asked of a machine, and whatever a text, reading it goes as the text
and the depth limit say: it fails with their error and leaves every slot as it was, or it adds an
expression of their terms. -/
theorem parse_all_or_nothing (lib : Library β) (config : Config) (ops : List (Operation β))
    (r r' : Request β) (m : Machine β)
    (hm : Relation.ReflTransGen (Makes lib) (r, operateAll lib config ops) (r', m))
    (source : List Char) :
    Extends m (m.parse source).2 ∧
    (∀ e, Term.readWithin config.maxDepth source = .error e →
      (m.parse source).1 = .error e ∧
        ∀ s, (m.parse source).2.store.get? s = m.store.get? s) ∧
    ∀ terms, Term.readWithin config.maxDepth source = .ok terms →
      ∃ expr, (m.parse source).1 = .ok expr ∧
        Gains m expr (Term.trees terms) (m.parse source).2 := by
  obtain ⟨hops, es, hrun⟩ := sound_operateAll lib config ops
  obtain ⟨hsound, hconfig⟩ := sound_of_reflTransGen hm hops
  have hheld : Held m := hsound.toHeld
  obtain rfl : m.config = config := hconfig.trans hrun.config
  cases hread : Term.readWithin m.config.maxDepth source with
  | error e =>
    have hparse : m.parse source = (.error e, (m.parse source).2) :=
      Prod.ext (parse_of_readWithin_eq_error hread) rfl
    have hundo := undoes_of_parse hheld.wf hparse
    refine ⟨hundo.extends hheld, ?_, fun _ h => (nomatch h)⟩
    rintro _ ⟨⟩
    exact ⟨by rw [hparse], hundo.get?⟩
  | ok terms =>
    obtain ⟨room, expr, m', hload, hparse⟩ := exists_parse_of_readWithin_eq_ok hread
    obtain ⟨ss, hloads⟩ := exists_loads_of_parse hheld.wf hparse
    rw [hparse]
    refine ⟨hloads.stores.extends hheld.wf, fun _ h => (nomatch h), ?_⟩
    rintro _ ⟨⟩
    exact ⟨expr, rfl, gains_of_loadAll hheld.wf hload⟩

/-- Two places are vacant and the third value is retained. What is read into the vacant places and
new ones stays within the limit of two; what goes deeper is taken back. -/
theorem parse_all_or_nothing_reuse :
    let lib : Library Unit := fun _ _ => pure none
    let m := operateAll lib { maxDepth := 2 } [.request (.allocate .nil), .request (.allocate .nil),
      .request (.allocate .nil), .request (.release ⟨0, 0⟩), .request (.release ⟨1, 0⟩),
      .request (.retain ⟨2, 0⟩)]
    let terms : List Term := [.symbol "f", .list [.symbol "a", .symbol "b"]]
    Relation.ReflTransGen (Makes lib) (.depth, m) (.depth, m) ∧ m.store.vacant = [1, 0] ∧
      (m.parse "f (a b)".toList).1 = .ok [⟨1, 1⟩, ⟨4, 0⟩] ∧
      Gains m [⟨1, 1⟩, ⟨4, 0⟩] (Term.trees terms) (m.parse "f (a b)".toList).2 ∧
      (m.parse "f (a b)".toList).2.store.slotsOfAll [⟨1, 1⟩, ⟨4, 0⟩] (Term.trees terms) =
        [⟨1, 1⟩, ⟨0, 1⟩, ⟨3, 0⟩, ⟨4, 0⟩] ∧
      (m.parse "f (a b)".toList).2.store.slots.length = 5 ∧
      (m.parse "f (a (b))".toList).1 = .error (.tooDeep 2) ∧
      Extends m (m.parse "f (a (b))".toList).2 ∧
      ∀ s, (m.parse "f (a (b))".toList).2.store.get? s = m.store.get? s := by
  intro lib m terms
  have hm : Relation.ReflTransGen (Makes lib) (.depth, m) (.depth, m) := .refl
  have hok : (m.parse "f (a b)".toList).1 = .ok [⟨1, 1⟩, ⟨4, 0⟩] := by
    decide +kernel +zetaReduce
  obtain ⟨-, -, hread⟩ := parse_all_or_nothing lib _ _ .depth .depth m hm "f (a b)".toList
  obtain ⟨hextends, hdeep, -⟩ := parse_all_or_nothing lib _ _ .depth .depth m hm "f (a (b))".toList
  obtain ⟨expr, hexpr, hgains⟩ := hread terms (by cbv)
  obtain ⟨herr, hsame⟩ := hdeep (.tooDeep 2) (by cbv)
  obtain rfl : [⟨1, 1⟩, ⟨4, 0⟩] = expr := Except.ok.inj (hok.symm.trans hexpr)
  have hcount : m.store.slots.length + Tree.nodesAll (Term.trees terms : List (Tree Unit)) = 5 := by
    decide +kernel +zetaReduce
  have hplaces : (m.parse "f (a b)".toList).2.store.slotsOfAll [⟨1, 1⟩, ⟨4, 0⟩] (Term.trees terms) =
      [⟨1, 1⟩, ⟨0, 1⟩, ⟨3, 0⟩, ⟨4, 0⟩] := by
    decide +kernel +zetaReduce
  have hvacant : m.store.vacant = [1, 0] := by decide +kernel +zetaReduce
  exact ⟨hm, hvacant, hok, hgains, hplaces, hgains.length.trans hcount, herr, hextends, hsame⟩

end Machine

end SlotScript
