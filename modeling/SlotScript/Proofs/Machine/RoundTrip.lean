import SlotScript.Machine.Render
import SlotScript.Proofs.Machine.Loading
import SlotScript.Proofs.Machine.Reclamation
import SlotScript.Proofs.Syntax.RoundTrip

/-!
# Expressions read back

An expression that a text was read into can be written, and an expression that can be written is
read back from its text as the same trees (`parse_renderAll`). What stands between the two is a list
of trees: `Store.ShowsAll` says which trees the slots of an expression stand for. Items that lists
share stand for equal trees, so sharing is neither needed nor kept.

Writing unfolds the slots into those trees (`collect_unfold_of_showsAll`); reading finds the terms
again (`Term.read_textAll`), and loading them stores the trees (`showsAll_of_loadAll`). The two
depth limits agree: terms are loaded when they are less deep than the limit (`exists_loadAll_eq`),
and slots are unfolded then.
-/

namespace SlotScript

open SlotScript.Syntax (Term)

variable {β : Type}

/-! ## The trees that slots stand for -/

namespace Store

mutual

/-- A live slot stands for the tree. -/
def Shows (st : Store β) : Slot → Tree β → Prop
  | s, .leaf v => st.get? s = some v ∧ v.kind ≠ .list
  | s, .node trees => ∃ items, st.get? s = some (.list items) ∧ st.ShowsAll items trees

/-- Live slots stand for the trees, in order. -/
def ShowsAll (st : Store β) : List Slot → List (Tree β) → Prop
  | ss, [] => ss = []
  | ss, t :: trees => ∃ s rest, ss = s :: rest ∧ st.Shows s t ∧ st.ShowsAll rest trees

end

variable {st st' : Store β}

mutual

theorem Shows.mono (h : ∀ s v, st.get? s = some v → st'.get? s = some v) :
    ∀ {t : Tree β} {s : Slot}, st.Shows s t → st'.Shows s t
  | .leaf v, s, ⟨hget, hv⟩ => ⟨h s v hget, hv⟩
  | .node _, s, ⟨items, hget, hall⟩ => ⟨items, h s _ hget, hall.mono h⟩

theorem ShowsAll.mono (h : ∀ s v, st.get? s = some v → st'.get? s = some v) :
    ∀ {trees : List (Tree β)} {ss : List Slot}, st.ShowsAll ss trees → st'.ShowsAll ss trees
  | [], _, hnil => hnil
  | _ :: _, _, ⟨s, rest, hss, hs, hrest⟩ => ⟨s, rest, hss, hs.mono h, hrest.mono h⟩

end

end Store

namespace Machine

variable {m m' : Machine β} {room : Nat} {s : Slot} {expr slots before : List Slot}

/-! ## Writing -/

mutual

theorem unfold_of_shows : ∀ {t : Tree β} {s : Slot} {room : Nat}, m.store.Shows s t →
    t.depth < room → m.unfold room s = .ok t
  | .leaf v, s, room + 1, ⟨hget, hv⟩, _ => by
    have hvalue : m.value s = .ok v := Store.get_eq_ok_iff.2 hget
    cases v with
    | list items => exact absurd rfl hv
    | nil | number | integer | text | builtin | symbol | host => simp only [unfold, hvalue]
  | .node trees, s, room + 1, ⟨items, hget, hall⟩, hroom => by
    have hvalue : m.value s = .ok (.list items) := Store.get_eq_ok_iff.2 hget
    have hitems : collect (m.unfold room) items = .ok trees :=
      collect_unfold_of_showsAll hall (Nat.lt_of_succ_lt_succ hroom)
    simp only [unfold, hvalue, hitems]
    rfl

theorem collect_unfold_of_showsAll : ∀ {trees : List (Tree β)} {ss : List Slot} {room : Nat},
    m.store.ShowsAll ss trees → Tree.depthAll trees < room →
      collect (m.unfold room) ss = .ok trees
  | [], _, _, rfl, _ => rfl
  | t :: trees, _, room, ⟨s, rest, rfl, hs, hrest⟩, hroom => by
    obtain ⟨ht, htrees⟩ := Nat.max_lt.1 hroom
    simp only [collect, unfold_of_shows hs ht, collect_unfold_of_showsAll hrest htrees]
    rfl

end

/-! ## Loading -/

mutual

/-- Terms that go no deeper than there is room are loaded. -/
theorem exists_load_eq : ∀ (t : Term) (m : Machine β) {room : Nat},
    (t.tree : Tree β).depth ≤ room → ∃ s m', m.load room t = (.ok s, m')
  | .number _, m, room, _ | .text _, m, room, _ | .symbol _, m, room, _ => ⟨_, _, by rw [load]⟩
  | .list items, m, room + 1, h => by
    obtain ⟨slots, m', hload⟩ := exists_loadAll_eq items m [] (Nat.le_of_succ_le_succ h)
    exact ⟨_, _, by rw [load, hload]⟩

theorem exists_loadAll_eq : ∀ (terms : List Term) (m : Machine β) (before : List Slot) {room : Nat},
    Tree.depthAll (Term.trees terms : List (Tree β)) ≤ room →
      ∃ slots m', m.loadAll room before terms = (.ok slots, m')
  | [], m, before, room, _ => ⟨_, _, by rw [loadAll]⟩
  | t :: terms, m, before, room, h => by
    obtain ⟨ht, hterms⟩ := Nat.max_le.1 h
    obtain ⟨s, m', hload⟩ := exists_load_eq t m ht
    obtain ⟨slots, m'', hrest⟩ := exists_loadAll_eq terms m' (s :: before) hterms
    exact ⟨slots, m'', by rw [loadAll, hload]; exact hrest⟩

end

theorem shows_leaf_allocate (hm : m.store.WF) {v : Value β} (hv : v.kind ≠ .list) :
    (m.allocate v).2.store.Shows m.store.nextSlot (.leaf v) :=
  ⟨by rw [Stores.get?_allocate hm, if_pos rfl], hv⟩

theorem shows_node_allocate (hm : m.store.WF) {trees : List (Tree β)}
    (h : m.store.ShowsAll slots trees) :
    (m.allocate (.list slots)).2.store.Shows m.store.nextSlot (.node trees) := by
  refine ⟨slots, by rw [Stores.get?_allocate hm, if_pos rfl], h.mono fun a w ha => ?_⟩
  exact (Stores.snoc (.nil m) (.list slots)).get?_of_get? hm ha

mutual

theorem shows_of_load : ∀ (t : Term) {m m' : Machine β} {room : Nat} {s : Slot}, m.store.WF →
    m.load room t = (.ok s, m') → (t.tree : Tree β).depth ≤ room ∧ m'.store.Shows s t.tree
  | .number _, m, m', room, s, hm, h | .text _, m, m', room, s, hm, h
  | .symbol _, m, m', room, s, hm, h => by
    rw [load] at h
    cases h
    exact ⟨Nat.zero_le _, shows_leaf_allocate hm (fun hk => (nomatch hk))⟩
  | .list items, m, m', 0, s, hm, h => by
    rw [load] at h
    cases h
  | .list items, m, m', room + 1, s, hm, h => by
    rw [load] at h
    split at h
    · cases h
    · next slots m₁ hload =>
      cases h
      obtain ⟨new, ss, rfl, hdepth, hshows, hstores⟩ := showsAll_of_loadAll items hm hload
      exact ⟨Nat.succ_le_succ hdepth, shows_node_allocate (hstores.wf hm) hshows⟩

/-- The slots into which terms are loaded stand for the terms, and stay behind those before them. -/
theorem showsAll_of_loadAll : ∀ (terms : List Term) {m m' : Machine β} {room : Nat}
    {before slots : List Slot}, m.store.WF → m.loadAll room before terms = (.ok slots, m') →
      ∃ new ss, slots = before.reverse ++ new ∧
        Tree.depthAll (Term.trees terms : List (Tree β)) ≤ room ∧
          m'.store.ShowsAll new (Term.trees terms) ∧ Stores m ss m'
  | [], m, m', room, before, slots, hm, h => by
    rw [loadAll] at h
    cases h
    exact ⟨[], [], by rw [List.append_nil], Nat.zero_le _, rfl, .nil m⟩
  | t :: terms, m, m', room, before, slots, hm, h => by
    rw [loadAll] at h
    split at h
    · cases h
    · next s m₁ hload =>
      obtain ⟨hdepth, hshows⟩ := shows_of_load t hm hload
      obtain ⟨ss₁, hloads⟩ := (load_spec t m room hm).1 s m₁ hload
      have hwf := hloads.stores.wf hm
      obtain ⟨new, ss₂, rfl, hdepth', hshows', hstores⟩ := showsAll_of_loadAll terms hwf h
      refine ⟨s :: new, ss₁ ++ ss₂, by simp, Nat.max_le.2 ⟨hdepth, hdepth'⟩, ?_,
        hloads.stores.trans hstores⟩
      exact ⟨s, new, rfl, hshows.mono fun a w ha => hstores.get?_of_get? hwf ha, hshows'⟩

end

/-! ## Reading back -/

/-- An expression that stands for trees that can be written and read: they are less deep than the
machine allows, and their leaves are what reading gives. -/
structure Prints (m : Machine β) (expr : List Slot) (trees : List (Tree β)) : Prop where
  shows : m.store.ShowsAll expr trees
  depth : Tree.depthAll trees < m.config.maxDepth
  leaves : ∀ v ∈ Tree.leavesAll trees, v.Printable

theorem Prints.renderAll {trees : List (Tree β)} (h : m.Prints expr trees) :
    m.renderAll expr = .ok (Tree.textAll trees) := by
  rw [Machine.renderAll, collect_unfold_of_showsAll h.shows h.depth]
  rfl

theorem prints_of_parse (hm : m.store.WF) {source : List Char}
    (h : m.parse source = (.ok expr, m')) :
    ∃ terms, Term.read source = .ok terms ∧ m'.Prints expr (Term.trees terms) := by
  rw [parse] at h
  split at h
  · cases h
  · next room hroom =>
    split at h
    · cases h
    · next terms hread =>
      obtain ⟨new, ss, rfl, hdepth, hshows, hstores⟩ := showsAll_of_loadAll terms hm h
      refine ⟨terms, hread, hshows, ?_, Term.printable_of_read hread⟩
      rw [hstores.run.config, hroom]
      exact Nat.lt_succ_of_le hdepth

theorem Prints.parse {trees : List (Tree β)} (hm : m.store.WF) (h : m.Prints expr trees) :
    ∃ expr' m', m.parse (Tree.textAll trees).toList = (.ok expr', m') ∧ m'.Prints expr' trees := by
  obtain ⟨terms, rfl⟩ := Tree.exists_trees_eq trees h.leaves
  have hread := Term.read_textAll h.leaves
  obtain ⟨room, hroom⟩ : ∃ room, m.config.maxDepth = room + 1 :=
    Nat.exists_eq_succ_of_ne_zero (Nat.ne_zero_of_lt h.depth)
  obtain ⟨expr', m', hload⟩ := exists_loadAll_eq terms m [] (Nat.le_of_lt_succ (hroom ▸ h.depth))
  have hparse : m.parse (Tree.textAll (Term.trees terms : List (Tree β))).toList =
      (.ok expr', m') := by
    simp only [Machine.parse, hroom, hread, hload]
  obtain ⟨terms', hread', hprints⟩ := prints_of_parse hm hparse
  obtain rfl : terms = terms' := Except.ok.inj (hread.symm.trans hread')
  exact ⟨expr', m', hparse, hprints⟩

/-- Whatever a text is read into can be written, and whatever can be written is read back from its
text: the new expression stands for the same trees as the old one, which still does, and it is
written as the same text. -/
theorem parse_renderAll (hm : m.Arises) :
    (∀ source expr m', m.parse source = (.ok expr, m') → ∃ trees, m'.Prints expr trees) ∧
      ∀ expr trees, m.Prints expr trees →
        ∃ text expr' m', m.renderAll expr = .ok text ∧ m.parse text.toList = (.ok expr', m') ∧
          m'.store.ShowsAll expr trees ∧ m'.store.ShowsAll expr' trees ∧
            m'.renderAll expr' = .ok text := by
  refine ⟨?_, ?_⟩
  · intro source expr m' h
    obtain ⟨terms, -, hprints⟩ := prints_of_parse hm.wf h
    exact ⟨_, hprints⟩
  · intro expr trees h
    obtain ⟨expr', m', hparse, hprints⟩ := h.parse hm.wf
    obtain ⟨ss, hloads⟩ := exists_loads_of_parse hm.wf hparse
    refine ⟨_, expr', m', h.renderAll, hparse, ?_, hprints.shows, hprints.renderAll⟩
    exact h.shows.mono fun a w ha => hloads.stores.get?_of_get? hm.wf ha

/-- Minus zero, and a list that has it twice in the same slot. -/
theorem parse_renderAll_shared :
    let zero : Value Unit := .number (Number.ofMagnitude true 0)
    let first := (Machine.fresh {}).allocate zero
    let second := first.2.allocate (.list [first.1, first.1])
    let trees : List (Tree Unit) := [.node [.leaf zero, .leaf zero], .leaf zero]
    second.2.Arises ∧ second.2.Prints [second.1, first.1] trees ∧
      second.2.renderAll [second.1, first.1] = .ok "(-0 -0) -0" ∧
        ∃ expr m', second.2.parse "(-0 -0) -0".toList = (.ok expr, m') ∧
          m'.store.ShowsAll expr trees ∧ m'.renderAll expr = .ok "(-0 -0) -0" := by
  intro zero first second trees
  have hfresh : (Machine.fresh {} : Machine Unit).Arises := .fresh {}
  have hfirst : first.2.Arises := hfresh.run (.store _ zero)
  have hsecond : second.2.Arises := hfirst.run (.store _ _)
  have hzero : first.2.store.Shows first.1 (.leaf zero) :=
    shows_leaf_allocate hfresh.wf fun hk => (nomatch hk)
  have hlist : second.2.store.Shows second.1 (.node [.leaf zero, .leaf zero]) :=
    shows_node_allocate hfirst.wf ⟨_, _, rfl, hzero, _, _, rfl, hzero, rfl⟩
  have hzero' : second.2.store.Shows first.1 (.leaf zero) :=
    hzero.mono fun a w ha => (Stores.snoc (.nil first.2) _).get?_of_get? hfirst.wf ha
  have hprints : second.2.Prints [second.1, first.1] trees := by
    refine ⟨⟨_, _, rfl, hlist, _, _, rfl, hzero', rfl⟩, by decide, ?_⟩
    intro v hv
    obtain rfl : v = zero := by simpa [Tree.leavesAll, Tree.leaves, trees] using hv
    exact Number.isFinite_iff.2 (by decide)
  have htext : second.2.renderAll [second.1, first.1] = .ok "(-0 -0) -0" := by
    rw [hprints.renderAll]
    decide +kernel
  obtain ⟨text, expr, m', hrender, hparse, -, hshows, hagain⟩ :=
    (parse_renderAll hsecond).2 _ _ hprints
  obtain rfl : text = "(-0 -0) -0" := Except.ok.inj (hrender.symm.trans htext)
  exact ⟨hsecond, hprints, htext, expr, m', hparse, hshows, hagain⟩

end Machine

end SlotScript
