import SlotScript.Proofs.Machine.RoundTrip
import SlotScript.Proofs.Store.Search

/-!
# Which slots can be written

Slots and their items are a graph: items can be shared, lists can contain themselves, and an item
can have ended. `Store.Below k s t` says that `k` steps from a list to an item lead from `s` to `t`.
A slot is written exactly when every slot below it is live and fewer steps away than the limit
allows (`render_exact`); a failure names the limit when some slot lies that deep, and otherwise a
slot below that is not live (`unfold_eq_error`).

What is written is the text of the one tree that the slot stands for. A list is written as its items
are, each as often as it occurs.
-/

namespace SlotScript

variable {β α γ : Type}

/-! ## Slots below a slot -/

namespace Store

variable {st : Store β} {k : Nat} {s t : Slot}

/-- A path of `k` steps from a live list to one of its items leads from one slot to another. -/
def Below (st : Store β) : Nat → Slot → Slot → Prop
  | 0, s, t => s = t
  | k + 1, s, t => ∃ u, st.HasItem s u ∧ st.Below k u t

theorem Below.path (h : st.Below k s t) : st.Path s t := by
  induction k generalizing s with
  | zero =>
    obtain rfl : s = t := h
    exact .refl
  | succ k ih =>
    obtain ⟨u, hitem, hbelow⟩ := h
    exact .head hitem (ih hbelow)

mutual

/-- A slot stands for one tree only. -/
theorem Shows.unique : ∀ {tree tree' : Tree β} {s : Slot}, st.Shows s tree → st.Shows s tree' →
    tree = tree'
  | .leaf v, .leaf v', s, ⟨hget, _⟩, ⟨hget', _⟩ => by
    rw [Option.some.inj (hget.symm.trans hget')]
  | .leaf v, .node trees, s, ⟨hget, hv⟩, ⟨items, hget', _⟩ => by
    obtain rfl := Option.some.inj (hget.symm.trans hget')
    exact absurd rfl hv
  | .node trees, .leaf v, s, ⟨items, hget, _⟩, ⟨hget', hv⟩ => by
    obtain rfl := Option.some.inj (hget'.symm.trans hget)
    exact absurd rfl hv
  | .node trees, .node trees', s, ⟨items, hget, hall⟩, ⟨items', hget', hall'⟩ => by
    obtain ⟨⟩ := Option.some.inj (hget.symm.trans hget')
    rw [hall.unique hall']

theorem ShowsAll.unique : ∀ {trees trees' : List (Tree β)} {ss : List Slot},
    st.ShowsAll ss trees → st.ShowsAll ss trees' → trees = trees'
  | [], [], _, _, _ => rfl
  | [], _ :: _, _, rfl, ⟨_, _, hss, _⟩ => by cases hss
  | _ :: _, [], _, ⟨_, _, hss, _⟩, rfl => by cases hss
  | t :: trees, t' :: trees', _, ⟨s, rest, rfl, hs, hrest⟩, ⟨s', rest', hss, hs', hrest'⟩ => by
    obtain ⟨rfl, rfl⟩ := List.cons.inj hss
    rw [hs.unique hs', hrest.unique hrest']

end

end Store

namespace Machine

variable {m : Machine β} {room k : Nat} {s t : Slot} {items : List Slot} {v : Value β} {e : Error}

/-! ## Results for all members of a list -/

section Collect

variable {f : α → Except Error γ} {members : List α} {results : List γ}

/-- The results are those of the members, one for each and in their order. -/
theorem collect_eq_ok_iff :
    collect f members = .ok results ↔ List.Forall₂ (fun a c => f a = .ok c) members results := by
  induction members generalizing results with
  | nil => simp [collect, eq_comm]
  | cons a rest ih =>
    rw [collect]
    cases hfa : f a with
    | error e => simp [hfa, List.forall₂_cons_left_iff]
    | ok c =>
      cases hrest : collect f rest with
      | error e => simp [Except.map, List.forall₂_cons_left_iff, ← ih, hrest]
      | ok cs => simp [Except.map, List.forall₂_cons_left_iff, ← ih, hrest, hfa, eq_comm]

/-- There are results when every member has one. -/
theorem exists_collect_eq_ok_iff :
    (∃ results, collect f members = .ok results) ↔ ∀ a ∈ members, ∃ c, f a = .ok c := by
  induction members with
  | nil => simp [collect]
  | cons a rest ih =>
    rw [collect, List.forall_mem_cons, ← ih]
    cases f a with
    | error e => simp
    | ok c => cases collect f rest <;> simp [Except.map]

/-- The failure is that of a member. -/
theorem exists_mem_of_collect_eq_error (h : collect f members = .error e) :
    ∃ a ∈ members, f a = .error e := by
  induction members with
  | nil => cases h
  | cons a rest ih =>
    rw [collect] at h
    cases hfa : f a with
    | error e' =>
      rw [hfa] at h
      cases h
      exact ⟨a, List.mem_cons_self, hfa⟩
    | ok c =>
      rw [hfa] at h
      cases hrest : collect f rest with
      | error e' =>
        rw [hrest] at h
        cases h
        obtain ⟨b, hb, he⟩ := ih hrest
        exact ⟨b, List.mem_cons_of_mem a hb, he⟩
      | ok cs =>
        rw [hrest] at h
        cases h

end Collect

/-! ## Unfolding a slot -/

theorem unfold_of_stale (h : m.store.get? s = none) (room : Nat) :
    m.unfold (room + 1) s = .error (.invalidHandle s) := by
  have hvalue : m.value s = .error (.invalidHandle s) := by rw [value, Store.get, h]
  simp only [unfold, hvalue]

theorem unfold_of_list (h : m.store.get? s = some (.list items)) (room : Nat) :
    m.unfold (room + 1) s = (collect (m.unfold room) items).map .node := by
  simp only [unfold, value_eq_ok_iff.2 h]

theorem unfold_of_leaf (h : m.store.get? s = some v) (hv : v.kind ≠ .list) (room : Nat) :
    m.unfold (room + 1) s = .ok (.leaf v) := by
  have hvalue : m.value s = .ok v := value_eq_ok_iff.2 h
  cases v with
  | list items => exact absurd rfl hv
  | _ => simp only [unfold, hvalue]

/-- What can be found at a slot that is to be unfolded. -/
theorem slot_cases (st : Store β) (s : Slot) :
    st.get? s = none ∨ (∃ items, st.get? s = some (.list items)) ∨
      ∃ v, st.get? s = some v ∧ v.kind ≠ .list := by
  cases h : st.get? s with
  | none => exact .inl rfl
  | some v =>
    cases v with
    | list items => exact .inr (.inl ⟨items, rfl⟩)
    | _ => exact .inr (.inr ⟨_, rfl, by simp [Value.kind]⟩)

/-- A failure names the limit when a slot lies as many steps away as there is room, and otherwise a
slot closer by that is not live. -/
theorem unfold_eq_error (h : m.unfold room s = .error e) :
    (e = .tooDeep m.config.maxDepth ∧ ∃ t, m.store.Below room s t) ∨
      ∃ k t, k < room ∧ m.store.Below k s t ∧ m.store.isLive t = false ∧ e = .invalidHandle t := by
  induction room generalizing s with
  | zero =>
    obtain rfl := Except.error.inj h
    exact .inl ⟨rfl, s, rfl⟩
  | succ room ih =>
    rcases slot_cases m.store s with hget | ⟨items, hget⟩ | ⟨v, hget, hv⟩
    · rw [unfold_of_stale hget] at h
      obtain rfl := Except.error.inj h
      exact .inr ⟨0, s, Nat.succ_pos room, rfl, Store.isLive_eq_false_iff.2 hget, rfl⟩
    · rw [unfold_of_list hget] at h
      cases hitems : collect (m.unfold room) items with
      | ok trees =>
        rw [hitems] at h
        cases h
      | error e' =>
        rw [hitems] at h
        obtain rfl := Except.error.inj h
        obtain ⟨u, hu, he⟩ := exists_mem_of_collect_eq_error hitems
        have hitem : m.store.HasItem s u := ⟨items, hget, hu⟩
        rcases ih he with ⟨rfl, t, ht⟩ | ⟨k, t, hk, ht, hlive, rfl⟩
        · exact .inl ⟨rfl, t, u, hitem, ht⟩
        · exact .inr ⟨k + 1, t, Nat.succ_lt_succ hk, ⟨u, hitem, ht⟩, hlive, rfl⟩
    · rw [unfold_of_leaf hget hv] at h
      cases h

/-- Every slot below an unfolded one is live and closer than the room. -/
theorem isLive_of_unfold {tree : Tree β} (h : m.unfold room s = .ok tree)
    (ht : m.store.Below k s t) : m.store.isLive t = true ∧ k < room := by
  induction room generalizing s k tree with
  | zero => cases h
  | succ room ih =>
    cases k with
    | zero =>
      obtain rfl : s = t := ht
      refine ⟨?_, Nat.succ_pos room⟩
      by_contra hlive
      rw [unfold_of_stale (Store.isLive_eq_false_iff.1 (Bool.eq_false_iff.2 hlive))] at h
      cases h
    | succ k =>
      obtain ⟨u, ⟨items, hget, hu⟩, ht⟩ := ht
      rw [unfold_of_list hget] at h
      cases hitems : collect (m.unfold room) items with
      | error e =>
        rw [hitems] at h
        cases h
      | ok trees =>
        obtain ⟨tree', htree'⟩ := exists_collect_eq_ok_iff.1 ⟨trees, hitems⟩ u hu
        obtain ⟨hlive, hk⟩ := ih htree' ht
        exact ⟨hlive, Nat.succ_lt_succ hk⟩

/-- A slot is unfolded when all slots below it are live and closer than the room. -/
theorem exists_unfold_eq_ok_iff :
    (∃ tree, m.unfold room s = .ok tree) ↔
      ∀ k t, m.store.Below k s t → m.store.isLive t = true ∧ k < room := by
  constructor
  · rintro ⟨tree, h⟩ k t ht
    exact isLive_of_unfold h ht
  · intro h
    cases hunfold : m.unfold room s with
    | ok tree => exact ⟨tree, rfl⟩
    | error e =>
      rcases unfold_eq_error hunfold with ⟨-, t, ht⟩ | ⟨k, t, -, ht, hlive, -⟩
      · exact absurd (h room t ht).2 (Nat.lt_irrefl room)
      · rw [(h k t ht).1] at hlive
        cases hlive

/-- More room changes nothing about what is unfolded. -/
theorem unfold_succ {tree : Tree β} (h : m.unfold room s = .ok tree) :
    m.unfold (room + 1) s = .ok tree := by
  induction room generalizing s tree with
  | zero => cases h
  | succ room ih =>
    rcases slot_cases m.store s with hget | ⟨items, hget⟩ | ⟨v, hget, hv⟩
    · rw [unfold_of_stale hget] at h
      cases h
    · rw [unfold_of_list hget] at h ⊢
      cases hitems : collect (m.unfold room) items with
      | error e =>
        rw [hitems] at h
        cases h
      | ok trees =>
        rw [hitems] at h
        rw [collect_eq_ok_iff.2 ((collect_eq_ok_iff.1 hitems).imp fun u tree' hu => ih hu)]
        exact h
    · rw [unfold_of_leaf hget hv] at h ⊢
      exact h

theorem showsAll_of_forall₂ {trees : List (Tree β)}
    (h : List.Forall₂ m.store.Shows items trees) : m.store.ShowsAll items trees := by
  induction h with
  | nil => rfl
  | cons hs _ ih => exact ⟨_, _, rfl, hs, ih⟩

/-- A slot is unfolded into the tree that it stands for. -/
theorem shows_of_unfold {tree : Tree β} (h : m.unfold room s = .ok tree) :
    m.store.Shows s tree := by
  induction room generalizing s tree with
  | zero => cases h
  | succ room ih =>
    rcases slot_cases m.store s with hget | ⟨items, hget⟩ | ⟨v, hget, hv⟩
    · rw [unfold_of_stale hget] at h
      cases h
    · rw [unfold_of_list hget] at h
      cases hitems : collect (m.unfold room) items with
      | error e =>
        rw [hitems] at h
        cases h
      | ok trees =>
        rw [hitems] at h
        obtain rfl := Except.ok.inj h
        have hall := (collect_eq_ok_iff.1 hitems).imp fun u tree hu => ih hu
        exact ⟨items, hget, showsAll_of_forall₂ hall⟩
    · rw [unfold_of_leaf hget hv] at h
      obtain rfl := Except.ok.inj h
      exact ⟨hget, hv⟩

/-! ## Texts -/

theorem texts_eq_map (trees : List (Tree β)) : Tree.texts trees = trees.map Tree.text := by
  induction trees with
  | nil => rfl
  | cons tree trees ih => rw [Tree.texts, ih, List.map_cons]

theorem render_eq_ok_iff {text : String} :
    m.render s = .ok text ↔ ∃ tree, m.unfold m.config.maxDepth s = .ok tree ∧ text = tree.text := by
  rw [render]
  cases m.unfold m.config.maxDepth s with
  | error e => simp [Except.map]
  | ok tree => simp [Except.map, eq_comm]

/-- Writing fails as unfolding does. -/
theorem render_eq_error_iff : m.render s = .error e ↔ m.unfold m.config.maxDepth s = .error e := by
  rw [render]
  cases m.unfold m.config.maxDepth s <;> simp [Except.map]

theorem forall₂_render {trees : List (Tree β)}
    (h : List.Forall₂ (fun t tree => m.unfold m.config.maxDepth t = .ok tree) items trees) :
    List.Forall₂ (fun t w => m.render t = .ok w) items (Tree.texts trees) := by
  rw [texts_eq_map, List.forall₂_map_right_iff]
  exact h.imp fun t tree ht => render_eq_ok_iff.2 ⟨tree, ht, rfl⟩

/-- A list that is written shows its items as they are written alone. -/
theorem exists_texts_of_render {text : String} (hget : m.store.get? s = some (.list items))
    (h : m.render s = .ok text) :
    ∃ texts, List.Forall₂ (fun t w => m.render t = .ok w) items texts ∧
      text = "(" ++ " ".intercalate texts ++ ")" := by
  obtain ⟨tree, hunfold, rfl⟩ := render_eq_ok_iff.1 h
  cases hroom : m.config.maxDepth with
  | zero =>
    rw [hroom] at hunfold
    cases hunfold
  | succ room =>
    rw [hroom, unfold_of_list hget] at hunfold
    cases hitems : collect (m.unfold room) items with
    | error e =>
      rw [hitems] at hunfold
      cases hunfold
    | ok trees =>
      rw [hitems] at hunfold
      obtain rfl := Except.ok.inj hunfold
      refine ⟨Tree.texts trees, forall₂_render ?_, by rw [Tree.text]⟩
      rw [hroom]
      exact (collect_eq_ok_iff.1 hitems).imp fun t tree ht => unfold_succ ht

theorem render_of_leaf {text : String} (hget : m.store.get? s = some v) (hv : v.kind ≠ .list)
    (h : m.render s = .ok text) : text = v.leafText := by
  obtain ⟨tree, hunfold, rfl⟩ := render_eq_ok_iff.1 h
  have hleaf : m.store.Shows s (.leaf v) := ⟨hget, hv⟩
  rw [(shows_of_unfold hunfold).unique hleaf, Tree.text]

theorem exists_renderAll_eq_ok_iff {expr : List Slot} :
    (∃ text, m.renderAll expr = .ok text) ↔ ∀ s ∈ expr, ∃ w, m.render s = .ok w := by
  have hslots : (∃ trees, collect (m.unfold m.config.maxDepth) expr = .ok trees) ↔
      ∀ s ∈ expr, ∃ tree, m.unfold m.config.maxDepth s = .ok tree := exists_collect_eq_ok_iff
  have hall : (∃ text, m.renderAll expr = .ok text) ↔
      ∃ trees, collect (m.unfold m.config.maxDepth) expr = .ok trees := by
    rw [renderAll]
    cases collect (m.unfold m.config.maxDepth) expr <;> simp [Except.map]
  rw [hall, hslots]
  refine forall₂_congr fun s _ => ?_
  constructor
  · rintro ⟨tree, h⟩
    exact ⟨tree.text, render_eq_ok_iff.2 ⟨tree, h, rfl⟩⟩
  · rintro ⟨w, h⟩
    obtain ⟨tree, hunfold, -⟩ := render_eq_ok_iff.1 h
    exact ⟨tree, hunfold⟩

/-- The text of an expression is made of the texts of its slots. -/
theorem exists_texts_of_renderAll {expr : List Slot} {text : String}
    (h : m.renderAll expr = .ok text) :
    ∃ texts, List.Forall₂ (fun t w => m.render t = .ok w) expr texts ∧
      text = " ".intercalate texts := by
  rw [renderAll] at h
  cases hexpr : collect (m.unfold m.config.maxDepth) expr with
  | error e =>
    rw [hexpr] at h
    cases h
  | ok trees =>
    rw [hexpr] at h
    obtain rfl := Except.ok.inj h
    exact ⟨Tree.texts trees, forall₂_render (collect_eq_ok_iff.1 hexpr), rfl⟩

/-- Writing never runs on. It succeeds at a slot below which every slot is live and fewer steps away
than the limit, and what is written is then the text of the one tree that the slot stands for, a
list's made of the texts of its items, one for each occurrence. Otherwise it names the limit, when a
slot lies that many steps away, or a slot closer by that is not live. An expression is written when
its slots are. -/
theorem render_exact (m : Machine β) (s : Slot) :
    ((∃ text, m.render s = .ok text) ↔
      ∀ k t, m.store.Below k s t → m.store.isLive t = true ∧ k < m.config.maxDepth) ∧
    (∀ e, m.render s = .error e →
      (e = .tooDeep m.config.maxDepth ∧ ∃ t, m.store.Below m.config.maxDepth s t) ∨
        ∃ k t, k < m.config.maxDepth ∧ m.store.Below k s t ∧ m.store.isLive t = false ∧
          e = .invalidHandle t) ∧
    (∀ text, m.render s = .ok text →
      (∃ tree, m.store.Shows s tree ∧ (∀ tree', m.store.Shows s tree' → tree' = tree) ∧
        text = tree.text) ∧
      (∀ items, m.store.get? s = some (.list items) →
        ∃ texts, List.Forall₂ (fun t w => m.render t = .ok w) items texts ∧
          text = "(" ++ " ".intercalate texts ++ ")") ∧
      ∀ v, m.store.get? s = some v → v.kind ≠ .list → text = v.leafText) ∧
    ∀ expr, ((∃ text, m.renderAll expr = .ok text) ↔ ∀ t ∈ expr, ∃ w, m.render t = .ok w) ∧
      ∀ text, m.renderAll expr = .ok text →
        ∃ texts, List.Forall₂ (fun t w => m.render t = .ok w) expr texts ∧
          text = " ".intercalate texts := by
  refine ⟨?_, fun e he => unfold_eq_error (render_eq_error_iff.1 he), fun text h => ⟨?_, ?_, ?_⟩,
    fun expr => ⟨exists_renderAll_eq_ok_iff, fun text => exists_texts_of_renderAll⟩⟩
  · rw [← exists_unfold_eq_ok_iff]
    constructor
    · rintro ⟨text, h⟩
      obtain ⟨tree, hunfold, -⟩ := render_eq_ok_iff.1 h
      exact ⟨tree, hunfold⟩
    · rintro ⟨tree, hunfold⟩
      exact ⟨tree.text, render_eq_ok_iff.2 ⟨tree, hunfold, rfl⟩⟩
  · obtain ⟨tree, hunfold, htext⟩ := render_eq_ok_iff.1 h
    have hshows : m.store.Shows s tree := shows_of_unfold hunfold
    exact ⟨tree, hshows, fun tree' h' => h'.unique hshows, htext⟩
  · intro items hget
    exact exists_texts_of_render hget h
  · intro v hget hv
    exact render_of_leaf hget hv h

/-- With two levels of room, a list that holds one empty list twice is written, and one that holds
itself is not. -/
example :
    let m := (Machine.fresh { maxDepth := 2 } : Machine Unit)
    let (inner, m) := m.allocate (.list [])
    let (outer, m) := m.allocate (.list [inner, inner])
    let (knot, m) := m.allocate (.list [⟨2, 0⟩])
    m.render outer = .ok "(() ())" ∧ m.render knot = .error (.tooDeep 2) := by
  decide

end Machine

end SlotScript
