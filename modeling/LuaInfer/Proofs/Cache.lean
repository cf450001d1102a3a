import LuaInfer.Node.Cache
import LuaInfer.Proofs.Lists
/-!
# What merging into a slot does

`UnionArena`: a union that is added to, or made, changes and no other. `NodeCache.setNode_cases` says all
that a merge can do to a cache. Everything later about caches comes from it: a merge appends what is
missing (`members_setNode`), it keeps the cache well formed, and it leaves other slots alone, together
with every union that the slot does not own.
-/

namespace LuaInfer

/-! ## Unions -/

namespace UnionArena

variable {a b : UnionArena} {u v : UnionId} {m n : TypeNode} {o : Option SlotKey}

/-- A union that is named exists. -/
def Holds (a : UnionArena) : TypeNode → Prop
  | .union u => u.index < a.size
  | _ => True

theorem holds_of_not_union (h : n.isUnion = false) : a.Holds n := by
  cases n with
  | union u => cases h
  | _ => trivial

theorem holds_some (h : n.isUnion = false) : ∀ m, some n = some m → a.Holds m := by
  rintro m ⟨⟩
  exact holds_of_not_union h

theorem members_eq (h : a.unions[u.index]? = b.unions[u.index]?) : a.members u = b.members u := by
  simp only [members, h]

theorem lt_size_of_eq (h : a.unions[u.index]? = b.unions[u.index]?) (hb : u.index < b.size) : u.index < a.size := by
  refine Nat.lt_of_not_le fun hu => ?_
  have hnone : a.unions[u.index]? = none := Array.getElem?_eq_none hu
  rw [hnone, Array.getElem?_eq_getElem (by exact hb)] at h
  cases h

theorem members_of_data {data : UnionData} (h : a.unions[u.index]? = some data) : a.members u = data.members := by
  simp only [members, h]

theorem owner?_of_data {data : UnionData} (h : a.unions[u.index]? = some data) : a.owner? u = data.owner := by
  simp only [owner?, h, Option.bind_some]

theorem members_of_size_le (h : a.size ≤ u.index) : a.members u = [] := by
  have hnone : a.unions[u.index]? = none := Array.getElem?_eq_none h
  simp only [members, hnone]

theorem lt_of_mem (h : n ∈ a.members u) : u.index < a.size := by
  refine Nat.lt_of_not_le fun hu => ?_
  rw [members_of_size_le hu] at h
  cases h

theorem lt_of_owner? {key : SlotKey} (h : a.owner? u = some key) : u.index < a.size := by
  refine Nat.lt_of_not_le fun hu => ?_
  have hnone : a.unions[u.index]? = none := Array.getElem?_eq_none hu
  simp [owner?, hnone] at h

/-- All that adding to a union can do: nothing, where the union is not there or is added to itself, or to push
what the node stands for. -/
theorem insert_cases (a : UnionArena) (u : UnionId) (n : TypeNode) :
    (a.insert u n = (false, a) ∧ (u.index < a.size → n = .union u)) ∨
    ∃ data, a.unions[u.index]? = some data ∧ n ≠ .union u ∧
      a.insert u n = ((data.pushAll (a.flatten n)).1,
        ⟨a.unions.setIfInBounds u.index (data.pushAll (a.flatten n)).2⟩) := by
  by_cases hn : n = .union u
  · exact .inl ⟨by rw [insert, if_pos hn], fun _ => hn⟩
  · cases hdata : a.unions[u.index]? with
    | none =>
      refine .inl ⟨by rw [insert, if_neg hn, hdata], fun hlt => ?_⟩
      exact absurd (Array.getElem?_eq_none_iff.mp hdata) (Nat.not_le.mpr hlt)
    | some data => exact .inr ⟨data, rfl, hn, by rw [insert, if_neg hn, hdata]⟩

@[simp] theorem size_add : (a.add u n).size = a.size := by
  rcases a.insert_cases u n with ⟨h, -⟩ | ⟨data, -, -, h⟩ <;> simp [add, h, size]

theorem getElem?_add_of_ne {i : Nat} (h : u.index ≠ i) : (a.add u n).unions[i]? = a.unions[i]? := by
  rcases a.insert_cases u n with ⟨hins, -⟩ | ⟨data, -, -, hins⟩
  · rw [add, hins]
  · rw [add, hins]
    exact Array.getElem?_setIfInBounds_ne h

/-- A union that is added to has what was missing at the end of its members. -/
theorem getElem?_add_self {data : UnionData} (h : a.unions[u.index]? = some data) :
    ∃ data', (a.add u n).unions[u.index]? = some data' ∧
      data'.members = Distinct.append data.members (a.flatten n) ∧ data'.owner = data.owner := by
  have hlt : u.index < a.size := (Array.getElem?_eq_some_iff.mp h).1
  rcases a.insert_cases u n with ⟨hins, hself⟩ | ⟨data', hdata, -, hins⟩
  · refine ⟨data, by rw [add, hins, h], ?_, rfl⟩
    have hmembers : a.flatten n = data.members := by
      rw [hself hlt]
      exact members_of_data h
    rw [hmembers, Distinct.append_of_subset fun _ hm => hm]
  · obtain rfl : data = data' := Option.some.inj (h.symm.trans hdata)
    refine ⟨(data.pushAll (a.flatten n)).2, ?_, data.members_pushAll _, data.owner_pushAll _⟩
    rw [add, hins]
    exact Array.getElem?_setIfInBounds_self_of_lt hlt

@[simp] theorem owner?_add : (a.add u n).owner? v = a.owner? v := by
  by_cases hv : u.index = v.index
  · rw [owner?, owner?, ← hv]
    cases hdata : a.unions[u.index]? with
    | none =>
      have hsize : (a.add u n).size ≤ u.index := by
        rw [size_add]
        exact Array.getElem?_eq_none_iff.mp hdata
      have hnone : (a.add u n).unions[u.index]? = none := Array.getElem?_eq_none hsize
      rw [hnone]
    | some data =>
      obtain ⟨data', hdata', -, howner⟩ := getElem?_add_self (n := n) hdata
      rw [hdata', Option.bind_some, Option.bind_some, howner]
  · rw [owner?, owner?, getElem?_add_of_ne hv]

theorem members_add_self (h : u.index < a.size) :
    (a.add u n).members u = Distinct.append (a.members u) (a.flatten n) := by
  have hu : a.unions[u.index]? = some a.unions[u.index] := Array.getElem?_eq_getElem h
  obtain ⟨data, hdata, hmembers, -⟩ := getElem?_add_self (n := n) hu
  rw [members_of_data hdata, members_of_data hu, hmembers]

theorem members_add_of_ne (h : v ≠ u) : (a.add u n).members v = a.members v := by
  refine members_eq (getElem?_add_of_ne fun e => h ?_)
  cases u; cases v; cases e; rfl

/-- The arena with one more union that has no members yet. -/
def pushed (a : UnionArena) (o : Option SlotKey) : UnionArena := ⟨a.unions.push (.empty o)⟩

theorem getElem?_pushed (i : Nat) :
    (a.pushed o).unions[i]? = if i = a.size then some (.empty o) else a.unions[i]? :=
  Array.getElem?_push

/-- The union that was added stands for nothing, as its name did before. -/
theorem flatten_pushed : (a.pushed o).flatten n = a.flatten n := by
  cases n with
  | union u =>
    change (a.pushed o).members u = a.members u
    by_cases h : u.index = a.size
    · rw [members_of_size_le (Nat.le_of_eq h.symm)]
      have hdata : (a.pushed o).unions[u.index]? = some (.empty o) := by rw [getElem?_pushed, if_pos h]
      exact members_of_data hdata
    · refine members_eq ?_
      rw [getElem?_pushed, if_neg h]
  | _ => rfl

theorem make_eq : a.make o m n = (⟨a.size⟩, ((a.pushed o).add ⟨a.size⟩ m).add ⟨a.size⟩ n) := rfl

theorem size_pushed : (a.pushed o).size = a.size + 1 := by
  simp [pushed, size]

@[simp] theorem size_make : (a.make o m n).2.size = a.size + 1 := by
  simp [make_eq, size_pushed]

/-- After a union was made, a union is an old one or the new one. -/
theorem lt_or_eq_of_lt_make (h : v.index < (a.make o m n).2.size) : v.index < a.size ∨ v = ⟨a.size⟩ := by
  rw [size_make] at h
  rcases Nat.lt_succ_iff_lt_or_eq.1 h with hlt | heq
  · exact .inl hlt
  · cases v
    cases heq
    exact .inr rfl

theorem getElem?_make {i : Nat} (h : i < a.size) : (a.make o m n).2.unions[i]? = a.unions[i]? := by
  have hi : (⟨a.size⟩ : UnionId).index ≠ i := (Nat.ne_of_lt h).symm
  rw [make_eq, getElem?_add_of_ne hi, getElem?_add_of_ne hi, getElem?_pushed, if_neg (Nat.ne_of_lt h)]

theorem owner?_make_self : (a.make o m n).2.owner? ⟨a.size⟩ = o := by
  have hnew : (a.pushed o).unions[a.size]? = some (.empty o) := by rw [getElem?_pushed, if_pos rfl]
  rw [make_eq, owner?_add, owner?_add]
  exact owner?_of_data (u := ⟨a.size⟩) hnew

theorem owner?_make (h : v.index < a.size) : (a.make o m n).2.owner? v = a.owner? v := by
  simp only [owner?, getElem?_make h]

theorem members_make (h : v.index < a.size) : (a.make o m n).2.members v = a.members v :=
  members_eq (getElem?_make h)

/-- A new union has what its two nodes stood for, also when one of them names a union that did not exist. -/
theorem members_make_self :
    (a.make o m n).2.members ⟨a.size⟩ = Distinct.append (Distinct.append [] (a.flatten m)) (a.flatten n) := by
  have hdata : (a.pushed o).unions[a.size]? = some (.empty o) := by rw [getElem?_pushed, if_pos rfl]
  have hnew : (a.pushed o).members ⟨a.size⟩ = [] := members_of_data (u := ⟨a.size⟩) hdata
  have hfirst : ((a.pushed o).add ⟨a.size⟩ m).members ⟨a.size⟩ = Distinct.append [] (a.flatten m) := by
    rw [members_add_self (by simp [size_pushed]), flatten_pushed, hnew]
  rw [make_eq, members_add_self (by simp [size_pushed]), hfirst]
  by_cases hn : n = .union ⟨a.size⟩
  · -- the second node is the new union itself, which stood for nothing
    have hnone : a.flatten (.union ⟨a.size⟩) = [] := members_of_size_le (Nat.le_refl _)
    have hself : ((a.pushed o).add ⟨a.size⟩ m).flatten (.union ⟨a.size⟩) = Distinct.append [] (a.flatten m) := hfirst
    rw [hn, hself, hnone, Distinct.append_nil, Distinct.append_of_subset fun _ h => h]
  · congr 1
    cases n with
    | union v =>
      have hv : v ≠ ⟨a.size⟩ := fun e => hn (congrArg TypeNode.union e)
      exact (members_add_of_ne hv).trans (flatten_pushed (n := .union v))
    | _ => rfl

/-- Adding to a union appends, and leaves the others as they are. -/
theorem isPrefix_add : a.members v <+: (a.add u n).members v := by
  by_cases hv : v = u
  · subst hv
    by_cases hlt : v.index < a.size
    · rw [members_add_self hlt]
      exact Distinct.isPrefix_append _ _
    · rw [members_of_size_le (Nat.not_lt.1 hlt)]
      exact List.nil_prefix
  · exact ⟨[], by rw [List.append_nil, members_add_of_ne hv]⟩

/-- To make a union changes no other. -/
theorem isPrefix_make : a.members v <+: (a.make o m n).2.members v := by
  by_cases hv : v.index < a.size
  · exact ⟨[], by rw [List.append_nil, members_make hv]⟩
  · rw [members_of_size_le (Nat.not_lt.1 hv)]
    exact List.nil_prefix

theorem nodup_flatten (h : ∀ u, (a.members u).Nodup) : (a.flatten n).Nodup := by
  cases n with
  | union u => exact h u
  | _ => simp [flatten]

theorem flatten_flat (h : ∀ u, ∀ m ∈ a.members u, m.isUnion = false) : ∀ m ∈ a.flatten n, m.isUnion = false := by
  cases n with
  | union u => exact h u
  | _ => intro m hm; cases List.mem_singleton.1 hm; rfl

theorem nodup_members_add (h : ∀ u, (a.members u).Nodup) : ((a.add u n).members v).Nodup := by
  by_cases hv : v = u
  · subst hv
    by_cases hlt : v.index < a.size
    · rw [members_add_self hlt]
      exact Distinct.nodup_append (h v) _
    · rw [members_of_size_le (by simpa using hlt)]
      exact List.nodup_nil
  · rw [members_add_of_ne hv]
    exact h v

theorem nodup_members_make (h : ∀ u, (a.members u).Nodup) : ((a.make o m n).2.members v).Nodup := by
  by_cases hv : v.index < (a.make o m n).2.size
  · rcases lt_or_eq_of_lt_make hv with hlt | rfl
    · rw [members_make hlt]
      exact h v
    · rw [members_make_self]
      exact Distinct.nodup_append (Distinct.nodup_append List.nodup_nil _) _
  · rw [members_of_size_le (Nat.le_of_not_lt hv)]
    exact List.nodup_nil

/-- After a union was made, a member is one of an old union, or of the two nodes that the new one is for. -/
theorem mem_make {x : TypeNode} (h : x ∈ (a.make o m n).2.members v) :
    (v.index < a.size ∧ x ∈ a.members v) ∨ (v = ⟨a.size⟩ ∧ (x ∈ a.flatten m ∨ x ∈ a.flatten n)) := by
  rcases lt_or_eq_of_lt_make (lt_of_mem h) with hlt | rfl
  · rw [members_make hlt] at h
    exact .inl ⟨hlt, h⟩
  · rw [members_make_self, Distinct.mem_append, Distinct.mem_append] at h
    exact .inr ⟨rfl, h.imp_left fun h => h.resolve_left (by simp)⟩

theorem flat_add (h : ∀ u, ∀ m ∈ a.members u, m.isUnion = false) : ∀ m ∈ (a.add u n).members v, m.isUnion = false := by
  intro m hm
  by_cases hv : v = u
  · subst hv
    rw [members_add_self (by simpa using lt_of_mem hm), Distinct.mem_append] at hm
    exact hm.elim (h v m) (flatten_flat h m)
  · rw [members_add_of_ne hv] at hm
    exact h v m hm

theorem flat_make (h : ∀ u, ∀ m ∈ a.members u, m.isUnion = false) :
    ∀ x ∈ (a.make o m n).2.members v, x.isUnion = false := by
  intro x hx
  rcases mem_make hx with ⟨-, hx⟩ | ⟨-, hx | hx⟩
  · exact h v x hx
  · exact flatten_flat h x hx
  · exact flatten_flat h x hx

end UnionArena

/-! ## Slots -/

namespace NodeCache

variable {c : NodeCache} {key k : SlotKey} {node n : TypeNode} {u : UnionId}

theorem slot?_insert (slots : Std.TreeMap SlotKey Slot) (unions : UnionArena) (slot : Slot) :
    slot? ⟨slots.insert key slot, unions⟩ k = if k = key then some slot else slot? ⟨slots, unions⟩ k := by
  simp only [slot?, Std.TreeMap.getElem?_insert, Std.compare_eq_iff_eq, eq_comm (a := key)]

theorem slot?_start : (c.start key).slot? k = if k = key then some ⟨.inProgress, none⟩ else c.slot? k :=
  slot?_insert ..

theorem slot?_finish :
    (c.finish key).slot? k = if k = key then some ⟨.resolved, c.node? key⟩ else c.slot? k :=
  slot?_insert ..

theorem slot?_store :
    (c.store key node).slot? k =
      if k = key then some ⟨(c.state? key).getD .resolved, some node⟩ else c.slot? k :=
  slot?_insert ..

theorem node?_start : (c.start key).node? k = if k = key then none else c.node? k := by
  simp only [node?, slot?_start]
  split <;> rfl

@[simp] theorem node?_finish : (c.finish key).node? k = c.node? k := by
  simp only [node?, slot?_finish]
  split
  · next h => subst h; rfl
  · rfl

theorem node?_store : (c.store key node).node? k = if k = key then some node else c.node? k := by
  simp only [node?, slot?_store]
  split <;> rfl

@[simp] theorem unions_store : (c.store key node).unions = c.unions := rfl

theorem storeUnion_eq :
    c.storeUnion key node n =
      { c with unions := (c.unions.make (some key) node n).2 }.store key (.union ⟨c.unions.size⟩) :=
  rfl

theorem slot?_storeUnion_of_ne (h : k ≠ key) : (c.storeUnion key node n).slot? k = c.slot? k := by
  rw [storeUnion_eq, slot?_store, if_neg h]
  rfl

theorem state?_eq_some {st : SlotState} : c.state? k = some st ↔ ∃ node, c.slot? k = some ⟨st, node⟩ := by
  constructor
  · intro h
    obtain ⟨⟨st', node⟩, hs, rfl⟩ := Option.map_eq_some_iff.1 h
    exact ⟨node, hs⟩
  · rintro ⟨node, hs⟩
    rw [state?, hs, Option.map_some]

theorem node?_of_slot? {slot : Slot} (h : c.slot? k = some slot) : c.node? k = slot.node := by
  rw [node?, h, Option.bind_some]

/-- All that a merge can do: the node comes first, or it brings nothing new, or the slot's own union
grows, or the slot gets a new union of its own. -/
theorem setNode_cases (c : NodeCache) (key : SlotKey) (n : TypeNode) :
    (c.node? key = none ∧ c.setNode key (some n) = c.store key n) ∨
    (∃ node, c.node? key = some node ∧ (∀ m ∈ c.unions.flatten n, m ∈ c.unions.flatten node) ∧
      c.setNode key (some n) = c) ∨
    (∃ u, c.node? key = some (.union u) ∧ c.unions.owner? u = some key ∧
      c.setNode key (some n) = { c with unions := c.unions.add u n }) ∨
    ∃ node, c.node? key = some node ∧ (∀ u, node = .union u → c.unions.owner? u ≠ some key) ∧
      c.setNode key (some n) = c.storeUnion key node n := by
  cases h : c.node? key with
  | none => exact .inl ⟨rfl, by simp only [setNode, h]⟩
  | some node =>
    by_cases hn : node = n
    · exact .inr (.inl ⟨node, rfl, fun m hm => hn ▸ hm, by simp [setNode, h, hn]⟩)
    · cases node with
      | union u =>
        by_cases hc : c.unions.contains u n
        · refine .inr (.inl ⟨_, rfl, fun m hm => ?_, by simp [setNode, h, hn, hc]⟩)
          exact UnionArena.contains_iff.1 hc m hm
        · by_cases ho : c.unions.owner? u = some key
          · exact .inr (.inr (.inl ⟨u, rfl, ho, by simp [setNode, h, hn, hc, ho]⟩))
          · refine .inr (.inr (.inr ⟨_, rfl, fun v hv => ?_, by simp [setNode, h, hn, hc, ho]⟩))
            cases hv
            exact ho
      | _ => exact .inr (.inr (.inr ⟨_, rfl, by simp, by simp [setNode, h, hn]⟩))

/-! ## Well-formed caches -/

/-- What merges keep of a cache. -/
structure WellFormed (c : NodeCache) : Prop where
  /-- A union in a slot exists. -/
  known : ∀ key node, c.node? key = some node → c.unions.Holds node
  /-- A union stands in the slot that may add to it. -/
  owned : ∀ u key, c.unions.owner? u = some key → c.node? key = some (.union u)
  /-- Some slot may add to it. -/
  owner : ∀ u, u.index < c.unions.size → ∃ key, c.unions.owner? u = some key
  /-- No member is a union. -/
  flat : ∀ u, ∀ n ∈ c.unions.members u, n.isUnion = false
  /-- No member stands twice. -/
  distinct : ∀ u, (c.unions.members u).Nodup

theorem wellFormed_empty : empty.WellFormed := by
  refine ⟨?_, ?_, ?_, ?_, ?_⟩ <;> intros <;> simp_all [empty, node?, slot?, UnionArena.owner?, UnionArena.members,
    UnionArena.empty, UnionArena.size]

namespace WellFormed

theorem flatten_flat (h : c.WellFormed) : ∀ m ∈ c.unions.flatten n, m.isUnion = false :=
  UnionArena.flatten_flat h.flat

theorem flatten_distinct (h : c.WellFormed) : (c.unions.flatten n).Nodup :=
  UnionArena.nodup_flatten h.distinct

theorem members_flat (h : c.WellFormed) {node : Option TypeNode} : ∀ m ∈ c.members node, m.isUnion = false := by
  cases node with
  | none => intro m hm; cases hm
  | some n => exact h.flatten_flat

theorem start (h : c.WellFormed) (habs : c.slot? key = none) : (c.start key).WellFormed where
  known k n hn := by
    rw [node?_start] at hn
    split at hn
    · cases hn
    · exact h.known k n hn
  owned u k ho := by
    have hk := h.owned u k ho
    rw [node?_start, if_neg ?_]
    · exact hk
    · rintro rfl
      rw [node?, habs] at hk
      cases hk
  owner := h.owner
  flat := h.flat
  distinct := h.distinct

theorem finish (h : c.WellFormed) : (c.finish key).WellFormed where
  known k n hn := h.known k n (by simpa using hn)
  owned u k ho := by simpa using h.owned u k ho
  owner := h.owner
  flat := h.flat
  distinct := h.distinct

theorem store (h : c.WellFormed) (hnode : c.node? key = none) (hn : c.unions.Holds n) : (c.store key n).WellFormed where
  known k m hm := by
    rw [node?_store] at hm
    split at hm
    · cases hm; exact hn
    · exact h.known k m hm
  owned u k ho := by
    have hk := h.owned u k ho
    rw [node?_store, if_neg ?_]
    · exact hk
    · rintro rfl
      rw [hnode] at hk
      cases hk
  owner := h.owner
  flat := h.flat
  distinct := h.distinct

theorem add (h : c.WellFormed) : ({ c with unions := c.unions.add u n } : NodeCache).WellFormed where
  known k m hm := by
    have := h.known k m hm
    cases m with
    | union v => simpa [UnionArena.Holds] using this
    | _ => trivial
  owned v k ho := h.owned v k (by simpa using ho)
  owner v hv := by simpa using h.owner v (by simpa using hv)
  flat _ := UnionArena.flat_add h.flat
  distinct _ := UnionArena.nodup_members_add h.distinct

theorem storeUnion (h : c.WellFormed) (hnode : c.node? key = some node)
    (hforeign : ∀ u, node = .union u → c.unions.owner? u ≠ some key) : (c.storeUnion key node n).WellFormed := by
  refine ⟨?_, ?_, ?_, ?_, ?_⟩
  · intro k m hm
    rw [storeUnion_eq, node?_store] at hm
    split at hm
    · cases hm; simp [storeUnion_eq, UnionArena.Holds]
    · have := h.known k m hm
      cases m with
      | union v => simpa [storeUnion_eq, UnionArena.Holds] using Nat.lt_succ_of_lt this
      | _ => trivial
  · intro v k ho
    rw [storeUnion_eq, unions_store] at ho
    rw [storeUnion_eq, node?_store]
    rcases UnionArena.lt_or_eq_of_lt_make (UnionArena.lt_of_owner? ho) with hlt | rfl
    · -- an old union stands where it stood, since the slot that gets the new one owned none
      rw [UnionArena.owner?_make hlt] at ho
      have hk := h.owned v k ho
      rw [if_neg ?_]
      · exact hk
      · rintro rfl
        rw [hnode] at hk
        exact hforeign v (Option.some.inj hk) ho
    · rw [UnionArena.owner?_make_self] at ho
      rw [if_pos (Option.some.inj ho).symm]
  · intro v hv
    rcases UnionArena.lt_or_eq_of_lt_make hv with hlt | rfl
    · obtain ⟨k, hk⟩ := h.owner v hlt
      exact ⟨k, (UnionArena.owner?_make hlt).trans hk⟩
    · exact ⟨key, UnionArena.owner?_make_self⟩
  · exact fun v => UnionArena.flat_make h.flat
  · exact fun v => UnionArena.nodup_members_make h.distinct

/-- A merge keeps a cache well formed, if the union that it merges exists. -/
theorem setNode (h : c.WellFormed) {node : Option TypeNode} (hn : ∀ n, node = some n → c.unions.Holds n) :
    (c.setNode key node).WellFormed := by
  cases node with
  | none => exact h
  | some n =>
    rcases setNode_cases c key n with ⟨hk, e⟩ | ⟨_, -, -, e⟩ | ⟨u, -, -, e⟩ | ⟨node, hk, hf, e⟩ <;> rw [e]
    · exact h.store hk (hn n rfl)
    · exact h
    · exact h.add
    · exact h.storeUnion hk hf

end WellFormed

/-! ## What a merge brings and what it leaves -/

theorem nodup_members {node : Option TypeNode} (h : ∀ u, (c.unions.members u).Nodup) : (c.members node).Nodup := by
  cases node with
  | none => exact List.nodup_nil
  | some n => exact UnionArena.nodup_flatten h

/-- A merge appends to the members of a slot those that are missing, whatever unions the node and the slot name. -/
theorem members_setNode {node : Option TypeNode} (h : ∀ u, (c.unions.members u).Nodup) :
    (c.setNode key node).members ((c.setNode key node).node? key) =
      Distinct.append (c.members (c.node? key)) (c.members node) := by
  cases node with
  | none => rfl
  | some n =>
    rcases setNode_cases c key n with ⟨hk, e⟩ | ⟨node, hk, hsub, e⟩ | ⟨u, hk, ho, e⟩ | ⟨node, hk, -, e⟩ <;> rw [e]
    · rw [node?_store, if_pos rfl, hk]
      exact (Distinct.nil_append (UnionArena.nodup_flatten h)).symm
    · rw [hk]
      exact (Distinct.append_of_subset hsub).symm
    · rw [hk, show NodeCache.node? { c with unions := c.unions.add u n } key = c.node? key from rfl, hk]
      exact UnionArena.members_add_self (UnionArena.lt_of_owner? ho)
    · rw [storeUnion_eq, node?_store, if_pos rfl, hk]
      refine UnionArena.members_make_self.trans ?_
      rw [Distinct.nil_append (UnionArena.nodup_flatten h)]
      rfl

theorem mem_setNode {node : Option TypeNode} {m : TypeNode} (h : c.WellFormed) :
    m ∈ (c.setNode key node).members ((c.setNode key node).node? key) ↔
      m ∈ c.members (c.node? key) ∨ m ∈ c.members node := by
  rw [members_setNode h.distinct, Distinct.mem_append]

theorem slot?_setNode_of_ne {node : Option TypeNode} (hk : k ≠ key) : (c.setNode key node).slot? k = c.slot? k := by
  cases node with
  | none => rfl
  | some n =>
    rcases setNode_cases c key n with ⟨-, e⟩ | ⟨_, -, -, e⟩ | ⟨u, -, -, e⟩ | ⟨node, -, -, e⟩ <;> rw [e]
    · rw [slot?_store, if_neg hk]
    · rfl
    · exact slot?_storeUnion_of_ne hk

/-- A merge into a slot that exists keeps its state. -/
theorem state?_setNode {node : Option TypeNode} {st : SlotState} (h : c.state? k = some st) :
    (c.setNode key node).state? k = some st := by
  by_cases hk : k = key
  · subst hk
    cases node with
    | none => exact h
    | some n =>
      rcases setNode_cases c k n with ⟨-, e⟩ | ⟨_, -, -, e⟩ | ⟨u, -, -, e⟩ | ⟨node, -, -, e⟩ <;> rw [e]
      · rw [state?, slot?_store, if_pos rfl, Option.map_some, h, Option.getD_some]
      · exact h
      · exact h
      · rw [storeUnion_eq, state?, slot?_store, if_pos rfl, Option.map_some]
        exact congrArg (fun o => some (Option.getD o SlotState.resolved)) h
  · rw [state?, slot?_setNode_of_ne hk]
    exact h

theorem isPrefix_members {c' : NodeCache} (h : ∀ u, c.unions.members u <+: c'.unions.members u) (m : Option TypeNode) :
    c.members m <+: c'.members m := by
  rcases m with _ | m
  · exact List.prefix_rfl
  · cases m with
    | union u => exact h u
    | leaf _ | global _ | generic _ => exact List.prefix_rfl

/-- No merge takes a member away from a node: new ones come after those that are there. -/
theorem isPrefix_members_setNode (c : NodeCache) (key : SlotKey) (node m : Option TypeNode) :
    c.members m <+: (c.setNode key node).members m := by
  refine isPrefix_members (fun u => ?_) m
  cases node with
  | none => exact List.prefix_rfl
  | some n =>
    rcases setNode_cases c key n with ⟨-, e⟩ | ⟨_, -, -, e⟩ | ⟨v, -, -, e⟩ | ⟨_, -, -, e⟩ <;> rewrite [e]
    · exact List.prefix_rfl
    · exact List.prefix_rfl
    · exact UnionArena.isPrefix_add
    · exact UnionArena.isPrefix_make

/-- Nor from a slot, also where the slot gets another node. -/
theorem isPrefix_setNode {node : Option TypeNode} (h : c.WellFormed) (k : SlotKey) :
    c.members (c.node? k) <+: (c.setNode key node).members ((c.setNode key node).node? k) := by
  by_cases hk : k = key
  · rw [hk, members_setNode h.distinct]
    exact Distinct.isPrefix_append _ _
  · have hnode : (c.setNode key node).node? k = c.node? k := by rw [node?, slot?_setNode_of_ne hk, node?]
    rw [hnode]
    exact isPrefix_members_setNode c key node (c.node? k)

/-- A merge leaves every union as it is that the slot does not own. -/
theorem getElem?_setNode {node : Option TypeNode} (hu : u.index < c.unions.size)
    (ho : c.unions.owner? u ≠ some key) :
    (c.setNode key node).unions.unions[u.index]? = c.unions.unions[u.index]? := by
  cases node with
  | none => rfl
  | some n =>
    rcases setNode_cases c key n with ⟨-, e⟩ | ⟨_, -, -, e⟩ | ⟨v, -, hv, e⟩ | ⟨node, -, -, e⟩ <;> rw [e]
    · rfl
    · refine UnionArena.getElem?_add_of_ne fun e => ho ?_
      cases u; cases v; cases e
      exact hv
    · exact UnionArena.getElem?_make hu

theorem owner?_setNode {node : Option TypeNode} {k : SlotKey} (h : c.unions.owner? u = some k) :
    (c.setNode key node).unions.owner? u = some k := by
  cases node with
  | none => exact h
  | some n =>
    rcases setNode_cases c key n with ⟨-, e⟩ | ⟨_, -, -, e⟩ | ⟨v, -, -, e⟩ | ⟨node, -, -, e⟩ <;> rw [e]
    · exact h
    · exact h
    · exact UnionArena.owner?_add.trans h
    · exact (UnionArena.owner?_make (UnionArena.lt_of_owner? h)).trans h

end NodeCache

end LuaInfer
