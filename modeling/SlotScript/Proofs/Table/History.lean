import Mathlib.Data.List.Induction
import Mathlib.Logic.Function.Basic
import SlotScript.Bindings

/-!
# Tables keep the order of binding

A table is what its history says: the changes that it has seen since it was empty, oldest first. A
name stands for the slot that it was last bound to, unless that was undone since, and the names are
listed in the order of the changes that bound them where they were not bound. Binding such a name
again is no such change, and removing one takes nothing from the history of the others. `Reflects`
says this of a history and a table; every change keeps it (`Reflects.edit`).

All of this is shown of any maps whose operations are lawful, from what single operations do to the
entries. That names are listed once is not among these laws; it follows for the tables that come
from empty ones.

A copy of a table takes over its history, and from then on each of the two goes on with its own
(`histories`). Since an operation writes to one table only, what holds of single tables holds of any
family of them (`tables_ordered`).
-/

namespace SlotScript

namespace Table

/-! ## The history of a table -/

/-- A change of a table. -/
inductive Edit where
  | assign (name : String) (s : Slot)
  | remove (name : String)
  | clear

namespace Edit

/-- The change takes away what a name is bound to. -/
def Unbinds (name : String) : Edit → Prop
  | .assign .. => False
  | .remove other => other = name
  | .clear => True

/-- The change binds a name, or takes away what it is bound to. -/
def Concerns (name : String) : Edit → Prop
  | .assign other _ => other = name
  | .remove other => other = name
  | .clear => True

end Edit

/-- Some change of a history has one property, given the changes before it, and all changes after it
have another. -/
def Since (P : List Edit → Edit → Prop) (Q : Edit → Prop) (history : List Edit) : Prop :=
  ∃ before e after, history = before ++ e :: after ∧ P before e ∧ ∀ e' ∈ after, Q e'

/-- The last change that concerns a name binds it to `s`. -/
def LastBound (history : List Edit) (name : String) (s : Slot) : Prop :=
  Since (fun _ e => e = .assign name s) (fun e => ¬ e.Concerns name) history

/-- The change with `i` others before it binds a name that was not bound, and none after it takes
the binding away. -/
def BoundSince (history : List Edit) (name : String) (i : Nat) : Prop :=
  Since (fun before e => before.length = i ∧ (∃ s, e = .assign name s) ∧
    ∀ s, ¬ LastBound before name s) (fun e => ¬ e.Unbinds name) history

variable {history : List Edit} {e : Edit} {name : String} {s : Slot} {i : Nat}

theorem not_since_nil {P : List Edit → Edit → Prop} {Q : Edit → Prop} : ¬ Since P Q [] := by
  rintro ⟨before, e, after, h, -⟩
  exact List.append_ne_nil_of_right_ne_nil before (List.cons_ne_nil e after) h.symm

theorem since_snoc {P : List Edit → Edit → Prop} {Q : Edit → Prop} :
    Since P Q (history ++ [e]) ↔ P history e ∨ Since P Q history ∧ Q e := by
  constructor
  · rintro ⟨before, e', after, heq, hP, hQ⟩
    rcases List.eq_nil_or_concat after with rfl | ⟨after, last, rfl⟩
    · obtain ⟨rfl, he⟩ := List.append_inj' heq rfl
      obtain rfl := List.singleton_inj.1 he
      exact .inl hP
    · rw [List.concat_eq_append] at heq hQ
      rw [← List.cons_append, ← List.append_assoc] at heq
      obtain ⟨rfl, he⟩ := List.append_inj' heq rfl
      obtain rfl := List.singleton_inj.1 he
      refine .inr ⟨⟨before, e', after, rfl, hP, fun x hx => ?_⟩, ?_⟩
      · exact hQ x (List.mem_append_left _ hx)
      · exact hQ e (List.mem_append_right _ (List.mem_singleton_self e))
  · rintro (hP | ⟨⟨before, e', after, rfl, hP, hQ⟩, he⟩)
    · exact ⟨history, e, [], rfl, hP, fun x hx => absurd hx List.not_mem_nil⟩
    · refine ⟨before, e', after ++ [e], by simp, hP, fun x hx => ?_⟩
      rcases List.mem_append.1 hx with hx | hx
      · exact hQ x hx
      · exact List.mem_singleton.1 hx ▸ he

theorem lastBound_snoc :
    LastBound (history ++ [e]) name s ↔
      e = .assign name s ∨ LastBound history name s ∧ ¬ e.Concerns name :=
  since_snoc

theorem boundSince_snoc :
    BoundSince (history ++ [e]) name i ↔
      (history.length = i ∧ (∃ s, e = .assign name s) ∧ ∀ s, ¬ LastBound history name s) ∨
        BoundSince history name i ∧ ¬ e.Unbinds name :=
  since_snoc

theorem lt_length_of_boundSince (h : BoundSince history name i) : i < history.length := by
  obtain ⟨before, e, after, rfl, ⟨rfl, -⟩, -⟩ := h
  simp

/-- A name stands for a slot just when some change has bound it and its binding was never taken
away. -/
theorem exists_boundSince_iff :
    (∃ i, BoundSince history name i) ↔ ∃ s, LastBound history name s := by
  induction history using List.reverseRecOn with
  | nil => exact ⟨fun ⟨_, h⟩ => absurd h not_since_nil, fun ⟨_, h⟩ => absurd h not_since_nil⟩
  | append_singleton history e ih =>
    simp only [lastBound_snoc, boundSince_snoc]
    cases e with
    | assign other s =>
      by_cases hother : other = name
      · subst hother
        refine ⟨fun _ => ⟨s, .inl rfl⟩, fun _ => ?_⟩
        by_cases hbound : ∃ s, LastBound history other s
        · obtain ⟨i, hi⟩ := ih.2 hbound
          exact ⟨i, .inr ⟨hi, not_false⟩⟩
        · exact ⟨_, .inl ⟨rfl, ⟨s, rfl⟩, not_exists.1 hbound⟩⟩
      · simp [Edit.Unbinds, Edit.Concerns, hother, ih]
    | remove other => simp [Edit.Unbinds, Edit.Concerns, ih]
    | clear => simp [Edit.Unbinds, Edit.Concerns]

/-! ## What a change does to a table -/

variable {M ι : Type} {map : OrderedMap String Slot M} {t : M} {key : String}

/-- The table after a change, and what the name of the change was bound to before. -/
def edit (map : OrderedMap String Slot M) (t : M) : Edit → Option Slot × M
  | .assign name s => map.assign t name s
  | .remove name => map.remove t name
  | .clear => (none, map.clear t)

/-- The names of a table in the order in which it lists them. -/
def names (map : OrderedMap String Slot M) (t : M) : List String :=
  (map.entries t).map Prod.fst

theorem lookup_cons_eq_ite {l : List (String × Slot)} {other : String} :
    ((other, s) :: l).lookup key = if key = other then some s else l.lookup key := by
  rw [List.lookup_cons]
  by_cases h : key = other
  · rw [if_pos h, beq_iff_eq.2 h]
  · rw [if_neg h, beq_eq_false_iff_ne.2 h]

theorem lookup_filter_ne {l : List (String × Slot)} :
    (l.filter fun entry => entry.1 ≠ name).lookup key =
      if key = name then none else l.lookup key := by
  induction l with
  | nil => exact (ite_self none).symm
  | cons entry l ih =>
    obtain ⟨other, s⟩ := entry
    by_cases hother : other = name
    · rw [List.filter_cons_of_neg (by simpa using hother), ih, lookup_cons_eq_ite, hother]
      by_cases hk : key = name
      · rw [if_pos hk, if_pos hk]
      · rw [if_neg hk, if_neg hk, if_neg hk]
    · rw [List.filter_cons_of_pos (by simpa using hother), lookup_cons_eq_ite, ih,
        lookup_cons_eq_ite]
      by_cases hk : key = other
      · have hne : key ≠ name := fun heq => hother (hk.symm.trans heq)
        rw [if_pos hk, if_neg hne, if_pos hk]
      · rw [if_neg hk, if_neg hk]

section Lawful

variable (hmap : map.Lawful)

include hmap

theorem mem_names_iff : name ∈ names map t ↔ ∃ s, map.get? t name = some s := by
  rw [← Option.isSome_iff_exists, ← Option.ne_none_iff_isSome, ne_eq, hmap.get?_eq_none_iff, names,
    List.mem_map]
  simp

theorem get?_assign (t : M) (name : String) (s : Slot) (key : String) :
    map.get? (map.assign t name s).2 key = if key = name then some s else map.get? t key := by
  rw [hmap.get?_eq, hmap.get?_eq]
  rcases hmap.entries_assign t name s with ⟨front, old, back, ht, hfront, h⟩ | ⟨hnew, h⟩
  · rw [h, ht, List.lookup_append, List.lookup_append, lookup_cons_eq_ite, lookup_cons_eq_ite]
    by_cases hk : key = name
    · have hnone : front.lookup key = none :=
        List.lookup_eq_none_iff.2 fun entry hentry => bne_iff_ne.2 (hk ▸ (hfront entry hentry).symm)
      rw [if_pos hk, if_pos hk, hnone, Option.none_or]
    · rw [if_neg hk, if_neg hk, if_neg hk]
  · rw [h, List.lookup_append, lookup_cons_eq_ite]
    by_cases hk : key = name
    · have hnone : (map.entries t).lookup key = none :=
        List.lookup_eq_none_iff.2 fun entry hentry => bne_iff_ne.2 (hk ▸ (hnew entry hentry).symm)
      rw [if_pos hk, if_pos hk, hnone, Option.none_or]
    · rw [if_neg hk, if_neg hk, List.lookup_nil, Option.or_none]

theorem get?_remove (t : M) (name key : String) :
    map.get? (map.remove t name).2 key = if key = name then none else map.get? t key := by
  rw [hmap.get?_eq, hmap.get?_eq, hmap.entries_remove]
  exact lookup_filter_ne

/-- A name stands for what the change binds it to, or for what it stood for if the change does not
concern it. -/
theorem get?_edit_iff :
    map.get? (edit map t e).2 name = some s ↔
      e = .assign name s ∨ map.get? t name = some s ∧ ¬ e.Concerns name := by
  cases e with
  | assign other v =>
    rw [edit, get?_assign hmap]
    by_cases h : name = other
    · subst h
      simp [Edit.Concerns, eq_comm]
    · simp [Edit.Concerns, h, Ne.symm h]
  | remove other =>
    rw [edit, get?_remove hmap]
    by_cases h : name = other
    · simp [Edit.Concerns, h]
    · simp [Edit.Concerns, h, Ne.symm h]
  | clear => simp [edit, hmap.get?_eq, hmap.entries_clear, Edit.Concerns]

theorem names_assign :
    names map (map.assign t name s).2 =
      if name ∈ names map t then names map t else names map t ++ [name] := by
  unfold names
  rcases hmap.entries_assign t name s with ⟨front, old, back, ht, -, h⟩ | ⟨hnew, h⟩
  · rw [h, ht, if_pos (by simp)]
    simp
  · have hmem : name ∉ (map.entries t).map Prod.fst := by
      rintro hmem
      obtain ⟨entry, hentry, heq⟩ := List.mem_map.1 hmem
      exact hnew entry hentry heq
    rw [h, if_neg hmem, List.map_append]
    rfl

theorem names_remove : names map (map.remove t name).2 = (names map t).filter (· ≠ name) := by
  rw [names, hmap.entries_remove, names, List.filter_map]
  rfl

end Lawful

/-- A table is what its history says: every name is listed once, stands for the slot that it was
last bound to, and comes after the names that were bound before it. -/
structure Reflects (map : OrderedMap String Slot M) (history : List Edit) (t : M) : Prop where
  nodup : (names map t).Nodup
  get?_iff : ∀ name s, map.get? t name = some s ↔ LastBound history name s
  ordered : (names map t).Pairwise fun a b => ∀ i j,
    BoundSince history a i → BoundSince history b j → i < j

namespace Reflects

theorem empty (hmap : map.Lawful) : Reflects map [] map.empty := by
  refine ⟨?_, fun name s => ?_, ?_⟩
  · rw [names, hmap.entries_empty]
    exact List.nodup_nil
  · rw [hmap.get?_eq, hmap.entries_empty]
    exact ⟨fun h => (by cases h), fun h => absurd h not_since_nil⟩
  · rw [names, hmap.entries_empty]
    exact List.Pairwise.nil

/-- A table with the same entries has the same history. -/
theorem congr {t' : M} (h : Reflects map history t) (hmap : map.Lawful)
    (heq : map.entries t' = map.entries t) : Reflects map history t' := by
  have hnames : names map t' = names map t := congrArg (List.map Prod.fst) heq
  refine ⟨hnames ▸ h.nodup, fun name s => ?_, hnames ▸ h.ordered⟩
  rw [hmap.get?_eq, heq, ← hmap.get?_eq]
  exact h.get?_iff name s

theorem mem_names_iff (h : Reflects map history t) (hmap : map.Lawful) :
    name ∈ names map t ↔ ∃ i, BoundSince history name i := by
  simp only [Table.mem_names_iff hmap, exists_boundSince_iff, h.get?_iff]

theorem mem_entries_iff (h : Reflects map history t) (hmap : map.Lawful) :
    (name, s) ∈ map.entries t ↔ map.get? t name = some s := by
  refine ⟨fun hmem => ?_, fun hget => ?_⟩
  · obtain ⟨front, back, heq⟩ := List.append_of_mem hmem
    have hnodup := h.nodup
    rw [names, heq, List.map_append, List.map_cons, List.nodup_append] at hnodup
    exact hmap.get?_eq_some_iff.2 ⟨front, back, heq, fun entry hentry =>
      hnodup.2.2 _ (List.mem_map_of_mem hentry) name List.mem_cons_self⟩
  · obtain ⟨front, back, heq, -⟩ := hmap.get?_eq_some_iff.1 hget
    rw [heq]
    exact List.mem_append_right _ List.mem_cons_self

/-- A further change does not bind a name that is bound already. -/
theorem boundSince_of_snoc (h : Reflects map history t) (hmap : map.Lawful)
    (hname : name ∈ names map t) (hi : BoundSince (history ++ [e]) name i) :
    BoundSince history name i := by
  rcases boundSince_snoc.1 hi with ⟨-, -, hfresh⟩ | ⟨hi, -⟩
  · obtain ⟨s, hs⟩ := exists_boundSince_iff.1 ((h.mem_names_iff hmap).1 hname)
    exact absurd hs (hfresh s)
  · exact hi

theorem edit (h : Reflects map history t) (hmap : map.Lawful) (e : Edit) :
    Reflects map (history ++ [e]) (edit map t e).2 := by
  have hget : ∀ name s, map.get? (Table.edit map t e).2 name = some s ↔
      LastBound (history ++ [e]) name s :=
    fun name s => by rw [get?_edit_iff hmap, h.get?_iff, lastBound_snoc]
  have hold : (names map t).Pairwise fun a b => ∀ i j,
      BoundSince (history ++ [e]) a i → BoundSince (history ++ [e]) b j → i < j :=
    h.ordered.imp_of_mem fun ha hb hab i j hi hj =>
      hab i j (h.boundSince_of_snoc hmap ha hi) (h.boundSince_of_snoc hmap hb hj)
  cases e with
  | assign name s =>
    by_cases hname : name ∈ names map t
    · have hnames : names map (Table.edit map t (.assign name s)).2 = names map t :=
        (names_assign hmap).trans (if_pos hname)
      exact ⟨hnames ▸ h.nodup, hget, hnames ▸ hold⟩
    · have hnames : names map (Table.edit map t (.assign name s)).2 = names map t ++ [name] :=
        (names_assign hmap).trans (if_neg hname)
      refine ⟨?_, hget, ?_⟩
      · rw [hnames]
        refine List.nodup_append.2 ⟨h.nodup, List.pairwise_singleton _ _, fun a ha b hb => ?_⟩
        exact List.mem_singleton.1 hb ▸ ne_of_mem_of_not_mem ha hname
      · rw [hnames, List.pairwise_append]
        refine ⟨hold, List.pairwise_singleton _ _, fun a ha b hb i j hi hj => ?_⟩
        obtain rfl := List.mem_singleton.1 hb
        have hlt := lt_length_of_boundSince (h.boundSince_of_snoc hmap ha hi)
        -- The name is new, so it is bound since the change that comes last.
        rcases boundSince_snoc.1 hj with ⟨rfl, -⟩ | ⟨hj, -⟩
        · exact hlt
        · exact absurd ((h.mem_names_iff hmap).2 ⟨j, hj⟩) hname
  | remove name =>
    have hnames : names map (Table.edit map t (.remove name)).2 = (names map t).filter (· ≠ name) :=
      names_remove hmap
    refine ⟨?_, hget, ?_⟩
    · rw [hnames]
      exact h.nodup.filter _
    · rw [hnames]
      exact hold.filter _
  | clear =>
    have hnames : names map (Table.edit map t .clear).2 = [] :=
      congrArg (List.map Prod.fst) (hmap.entries_clear t)
    exact ⟨hnames ▸ List.nodup_nil, hget, hnames ▸ List.Pairwise.nil⟩

end Reflects

/-! ## Many tables -/

/-- What is done with tables: one is changed, or made a copy of another. -/
inductive Operation (ι : Type) where
  | edit (table : ι) (e : Edit)
  | copy (source target : ι)

/-- The table that an operation writes to. -/
def Operation.target : Operation ι → ι
  | .edit table _ => table
  | .copy _ target => target

variable [DecidableEq ι] {tables : ι → M} {seen : ι → List Edit} {ops : List (Operation ι)}
  {op : Operation ι} {table : ι}

/-- The tables after an operation, and what the name of a change was bound to before. -/
def operate (map : OrderedMap String Slot M) (tables : ι → M) :
    Operation ι → Option Slot × (ι → M)
  | .edit table e =>
    let (previous, t) := edit map (tables table) e
    (previous, Function.update tables table t)
  | .copy source target => (none, Function.update tables target (map.copy (tables source)))

def operateAll (map : OrderedMap String Slot M) (tables : ι → M) (ops : List (Operation ι)) :
    ι → M :=
  ops.foldl (fun tables op => (operate map tables op).2) tables

/-- The changes that the tables have seen after an operation. A copy has seen those of its
source. -/
def remember (seen : ι → List Edit) : Operation ι → ι → List Edit
  | .edit table e => Function.update seen table (seen table ++ [e])
  | .copy source target => Function.update seen target (seen source)

/-- The changes that the tables have seen after a sequence of operations, oldest first. -/
def histories (ops : List (Operation ι)) : ι → List Edit :=
  ops.foldl remember fun _ => []

theorem operate_edit {other : ι} {e : Edit} :
    (operate map tables (.edit other e)).2 table =
      if table = other then (edit map (tables other) e).2 else tables table :=
  Function.update_apply ..

theorem operate_copy {source target : ι} :
    (operate map tables (.copy source target)).2 table =
      if table = target then map.copy (tables source) else tables table :=
  Function.update_apply ..

theorem operate_of_ne (h : op.target ≠ table) : (operate map tables op).2 table = tables table := by
  cases op with
  | edit other e => exact operate_edit.trans (if_neg h.symm)
  | copy source target => exact operate_copy.trans (if_neg h.symm)

theorem operateAll_of_ne (h : ∀ op ∈ ops, op.target ≠ table) :
    operateAll map tables ops table = tables table := by
  induction ops generalizing tables with
  | nil => rfl
  | cons op ops ih =>
    have hrest : operateAll map (operate map tables op).2 ops table =
        (operate map tables op).2 table := ih fun op hop => h op (List.mem_cons_of_mem _ hop)
    exact hrest.trans (operate_of_ne (h op List.mem_cons_self))

/-- An operation does to the histories what it does to the tables. -/
theorem reflects_operate (hmap : map.Lawful)
    (h : ∀ table, Reflects map (seen table) (tables table)) (op : Operation ι) (table : ι) :
    Reflects map (remember seen op table) ((operate map tables op).2 table) := by
  cases op with
  | edit other e =>
    rw [remember, operate_edit, Function.update_apply]
    split
    · exact (h other).edit hmap e
    · exact h table
  | copy source target =>
    rw [remember, operate_copy, Function.update_apply]
    split
    · exact (h source).congr hmap (hmap.entries_copy _)
    · exact h table

/-- So do any number of them. -/
theorem reflects_operateAll (hmap : map.Lawful)
    (h : ∀ table, Reflects map (seen table) (tables table)) (ops : List (Operation ι)) (table : ι) :
    Reflects map (ops.foldl remember seen table) (operateAll map tables ops table) := by
  induction ops generalizing tables seen with
  | nil => exact h table
  | cons op ops ih => exact ih (reflects_operate hmap h op)

/-- Tables after any operations on empty ones. Each is an ordered map with the entries that its
history tells; binding and removing a name answer with what the history has it bound to; binding a
bound name keeps the order of all names, and removing one that of the others. A copy is its source
as it was then, and no table changes but by operations that write to it. A local binding goes before
a global one. -/
theorem tables_ordered (hmap : map.Lawful) (ops : List (Operation ι)) :
    let after : ι → M := operateAll map (fun _ => map.empty) ops
    (∀ table,
      Reflects map (histories ops table) (after table) ∧
      (∀ name s, (name, s) ∈ map.entries (after table) ↔ map.get? (after table) name = some s) ∧
      (∀ name, name ∈ names map (after table) ↔ ∃ i, BoundSince (histories ops table) name i) ∧
      (∀ name, map.contains (after table) name = true ↔ name ∈ names map (after table)) ∧
      map.size (after table) = (names map (after table)).length ∧
      (names map (after table)).zip (map.values (after table)) = map.entries (after table)) ∧
    (∀ table name s previous,
      ((operate map after (.edit table (.assign name s))).1 = some previous ↔
        LastBound (histories ops table) name previous) ∧
      ((operate map after (.edit table (.remove name))).1 = some previous ↔
        LastBound (histories ops table) name previous)) ∧
    (∀ table name s,
      (name ∈ names map (after table) →
        names map ((operate map after (.edit table (.assign name s))).2 table) =
          names map (after table)) ∧
      names map ((operate map after (.edit table (.remove name))).2 table) =
        (names map (after table)).filter (· ≠ name)) ∧
    (∀ source target later, (∀ op ∈ later, op.target ≠ target) →
      map.entries (operateAll map (operate map after (.copy source target)).2 later target) =
        map.entries (after source)) ∧
    (∀ table later, (∀ op ∈ later, op.target ≠ table) →
      operateAll map after later table = after table) ∧
    ∀ (scope globals : M) (name : String),
      (∀ s, map.resolve? (some scope) globals name = some s ↔
        map.get? scope name = some s ∨
          map.get? scope name = none ∧ map.get? globals name = some s) ∧
      map.resolve? none globals name = map.get? globals name := by
  intro after
  have hreflects : ∀ table, Reflects map (histories ops table) (after table) :=
    reflects_operateAll hmap (fun _ => .empty hmap) ops
  have hwritten : ∀ table e,
      (operate map after (.edit table e)).2 table = (edit map (after table) e).2 :=
    fun table e => operate_edit.trans (if_pos rfl)
  refine ⟨fun table => ⟨hreflects table, fun name s => (hreflects table).mem_entries_iff hmap,
      fun name => (hreflects table).mem_names_iff hmap, fun name => ?_, ?_, ?_⟩,
    fun table name s previous => ⟨?_, ?_⟩, fun table name s => ⟨fun hname => ?_, ?_⟩,
    fun source target later hlater => ?_, fun table later => operateAll_of_ne,
    fun scope globals name => ⟨fun s => Option.or_eq_some_iff, rfl⟩⟩
  · rw [hmap.contains_eq, mem_names_iff hmap, Option.isSome_iff_exists]
  · rw [hmap.size_eq, names, List.length_map]
  · rw [hmap.values_eq, names, List.zip_map', List.map_id']
  · rw [operate, edit, OrderedMap.assign_fst]
    exact (hreflects table).get?_iff name previous
  · rw [operate, edit, hmap.remove_fst]
    exact (hreflects table).get?_iff name previous
  · rw [hwritten]
    exact (names_assign hmap).trans (if_pos hname)
  · rw [hwritten]
    exact names_remove hmap
  · rw [operateAll_of_ne hlater, operate_copy, if_pos rfl, hmap.entries_copy]

/-- A copy stays as it is while its source loses a name and binds it again, now behind the
others. -/
theorem tables_ordered_copied :
    let ops : List (Operation String) :=
      [.edit "t" (.assign "a" ⟨1, 0⟩), .edit "t" (.assign "b" ⟨2, 0⟩),
        .edit "t" (.assign "a" ⟨3, 0⟩)]
    let later : List (Operation String) := [.edit "t" (.remove "a"), .edit "t" (.assign "a" ⟨4, 0⟩)]
    let before := operateAll Bindings.map (fun _ => .empty) ops
    let after := operateAll Bindings.map (operate Bindings.map before (.copy "t" "u")).2 later
    Bindings.map.Lawful ∧ (∀ op ∈ later, op.target ≠ "u") ∧
      (after "u").toList = [("a", ⟨3, 0⟩), ("b", ⟨2, 0⟩)] ∧
      (after "t").toList = [("b", ⟨2, 0⟩), ("a", ⟨4, 0⟩)] ∧
      LastBound (histories ops "t") "a" ⟨3, 0⟩ := by
  intro ops later before after
  have hlater : ∀ op ∈ later, op.target ≠ "u" := by decide
  obtain ⟨-, hanswer, -, hcopy, -⟩ := tables_ordered Bindings.lawful_map ops
  refine ⟨Bindings.lawful_map, hlater, (hcopy "t" "u" later hlater).trans ?_, by decide, ?_⟩
  · decide
  · exact (hanswer "t" "a" default ⟨3, 0⟩).2.1 (by decide)

end Table

end SlotScript
