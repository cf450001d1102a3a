import LuaInfer.Proofs.Draft
import Mathlib.Data.Fintype.Card
/-!
# What accesses name

An access on a local, or on a read of one, names a member of that local. An expression that starts from a global variable
names a path: the name of the variable, followed by keys. Both look through parentheses, and only at what exists when the
access is made. `Arena.OwnedBy` and `Arena.Path` say this about finished arenas, without any look-up of the construction, and
`Arena.registered` lists what a program registers under a path.

Declarations stay what they are, so an access goes on naming what it named when it was made (`Arena.Agree`). The first part is
about identity groups: what recording a declaration does to them (`IdentityTable.Records`).
-/

namespace LuaInfer

/-! ## Identity groups -/

namespace IdentityTable

variable {t t' : IdentityTable} {owner o : DeclId} {key k : Atom} {d e : DeclId} {assigns : Bool}

/-- The declaration was last recorded under the identity `owner.key`. -/
def Holds (t : IdentityTable) (d owner : DeclId) (key : Atom) : Prop :=
  ∃ i g, t.home[d]? = some i ∧ t.groups[i]? = some g ∧ g.owner = owner ∧ g.key = key

/-- Every declaration is a member of the group it was last recorded in, and no identity has two groups. -/
structure Tidy (t : IdentityTable) : Prop where
  home : ∀ (d : DeclId) (i : Nat), t.home[d]? = some i → ∃ g, t.groups[i]? = some g ∧ d ∈ g.members
  unique : ∀ (i j : Nat) g g', t.groups[i]? = some g → t.groups[j]? = some g' → g.owner = g'.owner → g.key = g'.key → i = j

/-- What recording `d` under `owner.key` does: its group is number `i`, and becomes `g`. -/
structure Records (t t' : IdentityTable) (owner : DeclId) (key : Atom) (d : DeclId) (i : Nat) (g : IdentityGroup) :
    Prop where
  home : t'.home = t.home.insert d i
  here : t'.groups[i]? = some g
  named : g.owner = owner ∧ g.key = key
  elsewhere : ∀ j, j ≠ i → t'.groups[j]? = t.groups[j]?
  members : ∀ m, m ∈ g.members ↔ m = d ∨ ∃ g₀, t.groups[i]? = some g₀ ∧ m ∈ g₀.members
  first : ∀ (j : Nat) g₀, t.groups[j]? = some g₀ → g₀.owner = owner → g₀.key = key → j = i
  before : ∀ g₀, t.groups[i]? = some g₀ → g₀.owner = owner ∧ g₀.key = key

theorem records_record (ht : t.Tidy) (owner : DeclId) (key : Atom) (d : DeclId) (assigns : Bool) :
    ∃ i g, Records t (t.record owner key d assigns) owner key d i g := by
  unfold record ensure
  cases hf : t.find? owner key with
  | some i =>
    obtain ⟨hlt, hp, -⟩ := Array.findIdx?_eq_some_iff_getElem.1 hf
    obtain ⟨g, hg⟩ : ∃ g, t.groups[i]? = some g := ⟨_, Array.getElem?_eq_getElem hlt⟩
    have hid : g.owner = owner ∧ g.key = key := by
      rw [Array.getElem?_eq_getElem hlt, Option.some.injEq] at hg
      rw [hg] at hp
      simpa using hp
    refine ⟨i, g.add d assigns, rfl, ?_, hid, fun j hj => ?_, fun m => ?_, fun j g₀ hj ho hk => ?_, fun g₀ hg₀ => ?_⟩
    · simp [Array.getElem?_modify, hg]
    · simp [Array.getElem?_modify, Ne.symm hj]
    · simp [IdentityGroup.add, hg, or_comm]
    · exact ht.unique j i g₀ g hj hg (ho.trans hid.1.symm) (hk.trans hid.2.symm)
    · rw [hg, Option.some.injEq] at hg₀
      exact hg₀ ▸ hid
  | none =>
    refine ⟨t.groups.size, ({ owner, key } : IdentityGroup).add d assigns, rfl, ?_, ⟨rfl, rfl⟩, fun j hj => ?_, fun m => ?_,
      fun j g₀ hj ho hk => ?_, fun g₀ hg₀ => ?_⟩
    · rw [Array.getElem?_modify, if_pos rfl, Array.getElem?_push_size]
      rfl
    · rw [Array.getElem?_modify, if_neg (Ne.symm hj), Array.getElem?_push, if_neg hj]
    · simp [IdentityGroup.add]
    · -- there was no group of this identity
      obtain ⟨hlt, rfl⟩ := Array.getElem?_eq_some_iff.1 hj
      have hno := Array.findIdx?_eq_none_iff.1 hf _ (Array.getElem_mem hlt)
      simp [ho, hk] at hno
    · simp at hg₀

variable {i : Nat} {g : IdentityGroup}

theorem Records.home? (h : Records t t' owner key d i g) : t'.home[e]? = if e = d then some i else t.home[e]? := by
  rw [h.home, Std.TreeMap.getElem?_insert]
  by_cases hed : e = d
  · subst hed
    simp
  · rw [if_neg hed, if_neg]
    intro hc
    exact hed (Std.LawfulEqOrd.eq_of_compare hc).symm

theorem Records.holds (h : Records t t' owner key d i g) : t'.Holds d owner key :=
  ⟨i, g, by rw [h.home?, if_pos rfl], h.here, h.named⟩

/-- Whatever else is recorded stays where it is. -/
theorem Records.holds_of_ne (h : Records t t' owner key d i g) (hne : e ≠ d) (he : t.Holds e o k) : t'.Holds e o k := by
  obtain ⟨j, g₀, hhome, hg₀, ho, hk⟩ := he
  by_cases hj : j = i
  · subst hj
    obtain ⟨ho', hk'⟩ := h.before g₀ hg₀
    refine ⟨j, g, by rw [h.home?, if_neg hne, hhome], h.here, ?_, ?_⟩
    · rw [h.named.1, ← ho', ho]
    · rw [h.named.2, ← hk', hk]
  · exact ⟨j, g₀, by rw [h.home?, if_neg hne, hhome], by rw [h.elsewhere j hj, hg₀], ho, hk⟩

theorem Records.tidy (h : Records t t' owner key d i g) (ht : t.Tidy) : t'.Tidy := by
  have hgroup : ∀ (j : Nat) g', t'.groups[j]? = some g' → (j = i ∧ g' = g) ∨ (j ≠ i ∧ t.groups[j]? = some g') := by
    intro j g' hj
    by_cases hji : j = i
    · subst hji
      rw [h.here, Option.some.injEq] at hj
      exact .inl ⟨rfl, hj.symm⟩
    · exact .inr ⟨hji, by rwa [h.elsewhere j hji] at hj⟩
  refine ⟨fun e j hj => ?_, fun j j' g₁ g₂ h₁ h₂ ho hk => ?_⟩
  · rw [h.home?] at hj
    split at hj
    · next hed =>
      cases hj
      exact ⟨g, h.here, (h.members e).2 (.inl hed)⟩
    · obtain ⟨g₀, hg₀, hmem⟩ := ht.home e j hj
      by_cases hji : j = i
      · subst hji
        exact ⟨g, h.here, (h.members e).2 (.inr ⟨g₀, hg₀, hmem⟩)⟩
      · exact ⟨g₀, by rw [h.elsewhere j hji, hg₀], hmem⟩
  · rcases hgroup j g₁ h₁ with ⟨rfl, rfl⟩ | ⟨hne, h₁'⟩ <;> rcases hgroup j' g₂ h₂ with ⟨rfl, rfl⟩ | ⟨hne', h₂'⟩
    · rfl
    · exact (h.first j' g₂ h₂' (by rw [← ho, h.named.1]) (by rw [← hk, h.named.2])).symm
    · exact h.first j g₁ h₁' (by rw [ho, h.named.1]) (by rw [hk, h.named.2])
    · exact ht.unique j j' g₁ g₂ h₁' h₂' ho hk

/-- A member of a group either was one, or is what is recorded. -/
theorem Records.mem (h : Records t t' owner key d i g) {j : Nat} {g' : IdentityGroup} {m : DeclId}
    (hg' : t'.groups[j]? = some g') (hm : m ∈ g'.members) :
    (m = d ∧ j = i) ∨ ∃ g₀, t.groups[j]? = some g₀ ∧ m ∈ g₀.members := by
  by_cases hj : j = i
  · subst hj
    rw [h.here, Option.some.injEq] at hg'
    subst hg'
    exact ((h.members m).1 hm).imp_left fun hmd => ⟨hmd, rfl⟩
  · rw [h.elsewhere j hj] at hg'
    exact .inr ⟨g', hg', hm⟩

end IdentityTable

/-! ## What accesses name -/

/-- Kinds that are complete when they are made. -/
def DeclKind.isFixed : DeclKind → Bool
  | function .. | localVar .. | docClass .. => false
  | _ => true

theorem DeclKind.eq_of_core {kind kind' : DeclKind} (h : kind'.core = kind.core) (hf : kind.isFixed = true) :
    kind' = kind := by
  have hself : kind.core = kind := by
    cases kind <;> first | rfl | cases hf
  rw [hself] at h
  subst h
  cases kind' <;> first | rfl | cases hf

/-- Fields of a table constructor. -/
def DeclKind.isTableField : DeclKind → Bool
  | tableField .. => true
  | _ => false

namespace Arena

/-- Looking through parentheses, `d` is `e`, and everything on the way is among the first `n` declarations. -/
inductive Strips (a : Arena) (n : Nat) : DeclId → DeclId → Prop
  | done {e : DeclId} {kind : DeclKind} : e.index < n → a.kind? e = some kind → (∀ x, kind ≠ .paren x) → Strips a n e e
  | paren {d x e : DeclId} : d.index < n → a.kind? d = some (.paren x) → Strips a n x e → Strips a n d e

/-- The local that an access is an access of: it, or a read of it, is the base. -/
def OwnedBy (a : Arena) (d owner : DeclId) : Prop :=
  ∃ base e, a.base? d = some base ∧ a.Strips d.index base e ∧
    ((∃ name role value refs, a.kind? e = some (.localVar name role value refs)) ∧ owner = e ∨
      a.kind? e = some (.getLocal owner))

/-- The path that an expression names: a global variable, or a member of what its base names. -/
inductive Path (a : Arena) : DeclId → List Atom → Prop
  | read {d : DeclId} {name : Atom} : a.kind? d = some (.getGlobal name) → Path a d [name]
  | assign {d value : DeclId} {name : Atom} : a.kind? d = some (.setGlobal name value) → Path a d [name]
  | member {d base e : DeclId} {key : Atom} {path : List Atom} : a.base? d = some base → a.key? d = some key →
      a.Strips d.index base e → Path a e path → Path a d (path ++ [key])

/-- No member is accessed on a field of a table constructor. -/
def OffFields (a : Arena) : Prop :=
  ∀ decl ∈ a.decls, ∀ base ∈ decl.kind.base?, (a.kind? (a.unparen base)).any DeclKind.isTableField = false

instance (a : Arena) : Decidable a.OffFields :=
  inferInstanceAs (Decidable (∀ decl ∈ a.decls, ∀ base ∈ decl.kind.base?, _ = false))

/-- What the making of `d` registers under a path: an assignment registers itself, and an assignment of a table that exists
also the fields of the table. -/
noncomputable def registers (a : Arena) (path : List Atom) (d : DeclId) : List DeclId :=
  match a.kind? d with
  | some (.setGlobal name value) =>
    (if path = [name] then [d] else []) ++
      if value.index < d.index then
        ((a.keyedFields value).filter fun (key, _) => path = [name, key]).map Prod.snd
      else []
  | some (.setMember ..) => open Classical in if a.Path d path then [d] else []
  | _ => []

/-- What is registered under a path by the first `n` declarations, in the order of their making. -/
noncomputable def registered (a : Arena) (n : Nat) (path : List Atom) : List DeclId :=
  (List.range n).flatMap fun i => a.registers path ⟨i⟩

variable {a a' : Arena} {d e base : DeclId} {n m : Nat} {path : List Atom}

theorem exists_kind? (h : d.index < a.size) : ∃ kind, a.kind? d = some kind :=
  ⟨_, Option.map_eq_some_iff.2 ⟨_, Array.getElem?_eq_getElem h, rfl⟩⟩

theorem Strips.index_lt (h : a.Strips n d e) : e.index < n := by
  induction h with
  | done hlt _ _ => exact hlt
  | paren _ _ _ ih => exact ih

theorem Strips.kind (h : a.Strips n d e) : ∃ kind, a.kind? e = some kind ∧ ∀ x, kind ≠ .paren x := by
  induction h with
  | done _ hk hne => exact ⟨_, hk, hne⟩
  | paren _ _ _ ih => exact ih

theorem unparenFrom_self (h : ∀ x, a.kind? d ≠ some (.paren x)) (fuel : Nat) : a.unparenFrom fuel d = d := by
  cases fuel with
  | zero => rfl
  | succ fuel =>
    rw [unparenFrom]
    split
    · next x hx => exact absurd hx (h x)
    · rfl

theorem unparenFrom_add (i j : Nat) (d : DeclId) : a.unparenFrom (i + j) d = a.unparenFrom j (a.unparenFrom i d) := by
  induction i generalizing d with
  | zero => rw [Nat.zero_add]; rfl
  | succ i ih =>
    rw [Nat.succ_add, unparenFrom, unparenFrom]
    split
    · exact ih _
    · next hne => exact (unparenFrom_self hne j).symm

theorem Strips.exists_fuel (h : a.Strips n d e) : ∃ fuel, a.unparenFrom fuel d = e := by
  induction h with
  | done _ _ _ => exact ⟨0, rfl⟩
  | paren _ hk _ ih =>
    obtain ⟨fuel, hf⟩ := ih
    exact ⟨fuel + 1, by rw [unparenFrom, hk]; exact hf⟩

/-- The parentheses on the way are different declarations: from one that is met again the way would be shorter. So there are
no more of them than declarations. -/
theorem Strips.unparen (h : a.Strips n d e) : a.unparen d = e := by
  classical
  have hex := h.exists_fuel
  have hfind := Nat.find_spec hex
  have hlt : ∀ i < Nat.find hex, (a.unparenFrom i d).index < a.size := by
    intro i hi
    by_contra hge
    have hnone : a.kind? (a.unparenFrom i d) = none :=
      congrArg (Option.map Decl.kind) (Array.getElem?_eq_none (Nat.le_of_not_lt hge))
    obtain ⟨m, hm⟩ := Nat.exists_eq_add_of_lt hi
    rw [hm, Nat.add_assoc, unparenFrom_add, unparenFrom_self (by simp [hnone])] at hfind
    exact Nat.find_min hex hi hfind
  have hshort : ∀ i j, i < j → j < Nat.find hex → a.unparenFrom i d ≠ a.unparenFrom j d := by
    intro i j hij hj heq
    obtain ⟨m, hm⟩ := Nat.exists_eq_add_of_le (Nat.le_of_lt hj)
    rw [hm, unparenFrom_add, ← heq, ← unparenFrom_add] at hfind
    exact Nat.find_min hex (by omega) hfind
  have hinj : Function.Injective fun i : Fin (Nat.find hex) => (⟨(a.unparenFrom i d).index, hlt i i.2⟩ : Fin a.size) := by
    intro i j hij
    have heq : a.unparenFrom i d = a.unparenFrom j d := congrArg DeclId.mk (congrArg Fin.val hij)
    rcases Nat.lt_trichotomy i.1 j.1 with hlt | he | hgt
    · exact absurd heq (hshort i j hlt j.2)
    · exact Fin.ext he
    · exact absurd heq.symm (hshort j i hgt i.2)
  have hle : Nat.find hex ≤ a.size + 1 := Nat.le_succ_of_le (by simpa using Fintype.card_le_of_injective _ hinj)
  obtain ⟨m, hm⟩ := Nat.exists_eq_add_of_le hle
  obtain ⟨kind, hk, hne⟩ := h.kind
  have hend : ∀ x, a.kind? e ≠ some (.paren x) := fun x hx => by
    rw [hk, Option.some.injEq] at hx
    exact hne x hx
  change a.unparenFrom (a.size + 1) d = e
  rw [hm, unparenFrom_add, hfind, unparenFrom_self hend]

theorem strips_of_unparenFrom {fuel : Nat} {kind : DeclKind} (h : a.unparenFrom fuel d = e) (hk : a.kind? e = some kind)
    (hne : ∀ x, kind ≠ .paren x) : a.Strips a.size d e := by
  induction fuel generalizing d with
  | zero =>
    cases h
    exact .done (index_lt_of_kind? hk) hk hne
  | succ fuel ih =>
    rw [unparenFrom] at h
    split at h
    · next x hx => exact .paren (index_lt_of_kind? hx) hx (ih h)
    · cases h
      exact .done (index_lt_of_kind? hk) hk hne

/-- What is not a parenthesis itself is on no way through parentheses but at its end. -/
theorem Strips.pred (h : a.Strips (n + 1) d e) (hn : ∀ x, a.kind? ⟨n⟩ ≠ some (.paren x)) (he : e ≠ ⟨n⟩) :
    a.Strips n d e := by
  have hlt : ∀ d : DeclId, d.index < n + 1 → d ≠ ⟨n⟩ → d.index < n := by
    intro d hd hne
    refine Nat.lt_of_le_of_ne (Nat.le_of_lt_succ hd) fun hi => hne ?_
    cases d
    exact congrArg _ hi
  induction h with
  | done hd hk hp => exact .done (hlt _ hd he) hk hp
  | paren hd hk _ ih =>
    refine .paren (hlt _ hd ?_) hk (ih he)
    rintro rfl
    exact hn _ hk

/-! ### Arenas that agree -/

/-- The first `n` declarations are what they are. -/
def Agree (a a' : Arena) (n : Nat) : Prop :=
  ∀ d : DeclId, d.index < n → (a'.kind? d).map DeclKind.core = (a.kind? d).map DeclKind.core

theorem Agree.symm (h : a.Agree a' n) : a'.Agree a n := fun d hd => (h d hd).symm

theorem Agree.mono (h : a.Agree a' n) (hm : m ≤ n) : a.Agree a' m := fun d hd => h d (Nat.lt_of_lt_of_le hd hm)

theorem Agree.core (h : a.Agree a' n) {kind : DeclKind} (hd : d.index < n) (hk : a.kind? d = some kind) :
    ∃ kind', a'.kind? d = some kind' ∧ kind'.core = kind.core := by
  have hmap := h d hd
  rw [hk, Option.map_some] at hmap
  exact Option.map_eq_some_iff.1 hmap

theorem Agree.kind? (h : a.Agree a' n) {kind : DeclKind} (hd : d.index < n) (hf : kind.isFixed = true)
    (hk : a.kind? d = some kind) : a'.kind? d = some kind := by
  obtain ⟨kind', hk', hcore⟩ := h.core hd hk
  rw [hk', DeclKind.eq_of_core hcore hf]

theorem Agree.base? (h : a.Agree a' n) (hd : d.index < n) : a'.base? d = a.base? d ∧ a'.key? d = a.key? d := by
  have hcore : ∀ kind : DeclKind, kind.core.base? = kind.base? ∧ kind.core.key? = kind.key? := by
    intro kind
    cases kind <;> exact ⟨rfl, rfl⟩
  have hmap := h d hd
  unfold Arena.base? Arena.key?
  cases hk : a.kind? d with
  | none =>
    rw [hk, Option.map_none, Option.map_eq_none_iff] at hmap
    rw [hmap]
    exact ⟨rfl, rfl⟩
  | some kind =>
    obtain ⟨kind', hk', hc⟩ := h.core hd hk
    rw [hk']
    simp only [Option.bind_some]
    rw [← (hcore kind).1, ← (hcore kind).2, ← hc]
    exact ⟨(hcore kind').1.symm, (hcore kind').2.symm⟩

theorem Agree.strips (h : a.Agree a' n) (hs : a.Strips n d e) : a'.Strips n d e := by
  induction hs with
  | done hd hk hne =>
    obtain ⟨kind', hk', hcore⟩ := h.core hd hk
    refine .done hd hk' fun x hx => ?_
    subst hx
    exact hne x (DeclKind.eq_of_core hcore.symm rfl)
  | paren hd hk _ ih => exact .paren hd (h.kind? hd rfl hk) ih

theorem Agree.path_of (h : a.Agree a' n) (hd : d.index < n) (hp : a.Path d path) : a'.Path d path := by
  induction hp with
  | read hk => exact .read (h.kind? hd rfl hk)
  | assign hk => exact .assign (h.kind? hd rfl hk)
  | member hb hkey hs _ ih =>
    refine .member ((h.base? hd).1.trans hb) ((h.base? hd).2.trans hkey) ((h.mono (Nat.le_of_lt hd)).strips hs) (ih ?_)
    exact Nat.lt_trans hs.index_lt hd

theorem Agree.path_iff (h : a.Agree a' n) (hd : d.index < n) : a'.Path d path ↔ a.Path d path :=
  ⟨h.symm.path_of hd, h.path_of hd⟩

theorem Agree.ownedBy {owner : DeclId} (h : a.Agree a' n) (hd : d.index < n) (ho : a.OwnedBy d owner) :
    a'.OwnedBy d owner := by
  obtain ⟨base, e, hb, hs, hlocal⟩ := ho
  have he : e.index < n := Nat.lt_trans hs.index_lt hd
  refine ⟨base, e, (h.base? hd).1.trans hb, (h.mono (Nat.le_of_lt hd)).strips hs, hlocal.imp ?_ (h.kind? he rfl)⟩
  rintro ⟨⟨name, role, value, refs, hk⟩, rfl⟩
  obtain ⟨kind', hk', hcore⟩ := h.core he hk
  cases kind' <;> simp only [DeclKind.core, reduceCtorEq] at hcore
  exact ⟨⟨_, _, _, _, hk'⟩, rfl⟩

theorem Agree.keyedFields (h : a.Agree a' a.size) {value : DeclId} (hv : value.index < a.size)
    (hf : ∀ fields, a.kind? value = some (.table fields) → ∀ f ∈ fields, f.index < a.size) :
    a'.keyedFields value = a.keyedFields value := by
  by_cases ht : ∃ fields, a.kind? value = some (.table fields)
  · obtain ⟨fields, hk⟩ := ht
    unfold Arena.keyedFields
    rw [hk, h.kind? hv rfl hk]
    exact List.filterMap_congr fun f hmem => by rw [(h.base? (hf fields hk f hmem)).2]
  · have hnone : ∀ b : Arena, (∀ fields, b.kind? value ≠ some (.table fields)) → b.keyedFields value = [] := by
      intro b hb
      unfold Arena.keyedFields
      split
      · next fields hk => exact absurd hk (hb fields)
      · rfl
    rw [hnone a fun fields hk => ht ⟨fields, hk⟩, hnone a' fun fields hk => ht ⟨fields, h.symm.kind? hv rfl hk⟩]

theorem Agree.registers (h : a.Agree a' a.size)
    (hf : ∀ value fields, a.kind? value = some (.table fields) → ∀ f ∈ fields, f.index < a.size) (hd : d.index < a.size) :
    a'.registers path d = a.registers path d := by
  have hsame : ∀ kind : DeclKind, kind.isFixed = true → (a'.kind? d = some kind ↔ a.kind? d = some kind) :=
    fun kind hk => ⟨h.symm.kind? hd hk, h.kind? hd hk⟩
  unfold Arena.registers
  split
  · next name value hk =>
    rw [(hsame _ rfl).1 hk]
    dsimp only
    by_cases hv : value.index < d.index
    · rw [h.keyedFields (Nat.lt_trans hv hd) (hf value)]
    · rw [if_neg hv, if_neg hv]
  · next hk =>
    rw [(hsame _ rfl).1 hk]
    classical exact if_congr (h.path_iff hd) rfl rfl
  · next hg hm =>
    split
    · next hk => exact absurd ((hsame _ rfl).2 hk) (hg _ _)
    · next hk => exact absurd ((hsame _ rfl).2 hk) (hm _ _ _)
    · rfl

theorem Agree.registered (h : a.Agree a' a.size)
    (hf : ∀ value fields, a.kind? value = some (.table fields) → ∀ f ∈ fields, f.index < a.size) (hn : n ≤ a.size) :
    a'.registered n = a.registered n := by
  funext path
  unfold Arena.registered
  refine List.flatMap_congr fun i hi => ?_
  exact h.registers hf (Nat.lt_of_lt_of_le (List.mem_range.1 hi) hn)

theorem registered_succ : a.registered (n + 1) path = a.registered n path ++ a.registers path ⟨n⟩ := by
  simp [registered, List.range_succ, List.flatMap_append]

/-! ### Accesses, and what names nothing -/

/-- What is neither an access nor a global names nothing. -/
theorem not_path {kind : DeclKind} (hk : a.kind? d = some kind) (hb : kind.base? = none)
    (hr : ∀ name, kind ≠ .getGlobal name) (hs : ∀ name value, kind ≠ .setGlobal name value) : ¬ a.Path d path := by
  intro hp
  cases hp with
  | read h => rw [hk, Option.some.injEq] at h; exact hr _ h
  | assign h => rw [hk, Option.some.injEq] at h; exact hs _ _ h
  | member h => simp [Arena.base?, hk, hb] at h

theorem not_field_of_base? (h : a.base? d = some base) : ¬ a.IsField d := by
  rintro ⟨key, value, hk⟩
  simp [Arena.base?, hk, DeclKind.base?] at h

theorem Path.not_field (h : a.Path d path) : d.index < a.size ∧ ¬ a.IsField d := by
  cases h with
  | read hk => exact ⟨index_lt_of_kind? hk, fun ⟨key, value, hk'⟩ => by rw [hk] at hk'; cases hk'⟩
  | assign hk => exact ⟨index_lt_of_kind? hk, fun ⟨key, value, hk'⟩ => by rw [hk] at hk'; cases hk'⟩
  | member hb =>
    obtain ⟨kind, hk, -⟩ := Option.bind_eq_some_iff.1 hb
    exact ⟨index_lt_of_kind? hk, not_field_of_base? hb⟩

theorem path_getGlobal {name : Atom} (hk : a.kind? d = some (.getGlobal name)) : a.Path d path ↔ path = [name] := by
  constructor
  · intro hp
    cases hp with
    | read h => rw [hk] at h; cases h; rfl
    | assign h => rw [hk] at h; cases h
    | member h => simp [Arena.base?, hk, DeclKind.base?] at h
  · rintro rfl
    exact .read hk

theorem path_setGlobal {name : Atom} {value : DeclId} (hk : a.kind? d = some (.setGlobal name value)) :
    a.Path d path ↔ path = [name] := by
  constructor
  · intro hp
    cases hp with
    | read h => rw [hk] at h; cases h
    | assign h => rw [hk] at h; cases h; rfl
    | member h => simp [Arena.base?, hk, DeclKind.base?] at h
  · rintro rfl
    exact .assign hk

theorem path_access {member : Member} {value? : Option DeclId} (hk : a.kind? d = some (.access base member value?)) :
    a.Path d path ↔ ∃ key e rest, member.key? = some key ∧ a.Strips d.index base e ∧ a.Path e rest ∧ path = rest ++ [key] := by
  have hb : a.base? d = some base := by cases value? <;> simp [Arena.base?, hk, DeclKind.access, DeclKind.base?]
  have hkey : a.key? d = member.key? := by cases value? <;> simp [Arena.key?, hk, DeclKind.access, DeclKind.key?]
  constructor
  · intro hp
    cases hp with
    | read h => rw [hk] at h; cases value? <;> cases h
    | assign h => rw [hk] at h; cases value? <;> cases h
    | @member _ base' e key rest h hkey' hs hp =>
      rw [hb] at h
      cases h
      exact ⟨key, e, rest, hkey ▸ hkey', hs, hp, rfl⟩
  · rintro ⟨key, e, rest, hkey', hs, hp, rfl⟩
    exact .member hb (hkey ▸ hkey') hs hp

/-- The last declaration is an access: its owner is the one that is looked up for it. -/
theorem ownedBy_last {owner : DeclId} {member : Member} {value? : Option DeclId} (hsize : a.size = n + 1)
    (hk : a.kind? ⟨n⟩ = some (.access base member value?)) : a.OwnedBy ⟨n⟩ owner ↔ a.owner? base = some owner := by
  have hb : a.base? ⟨n⟩ = some base := by cases value? <;> simp [Arena.base?, hk, DeclKind.access, DeclKind.base?]
  have hlast : ∀ x, a.kind? ⟨n⟩ ≠ some (.paren x) := by rw [hk]; cases value? <;> simp [DeclKind.access]
  constructor
  · rintro ⟨base', e, hb', hs, hlocal⟩
    rw [hb] at hb'
    cases hb'
    unfold Arena.owner?
    dsimp only
    rw [hs.unparen]
    rcases hlocal with ⟨⟨name, role, value, refs, hke⟩, rfl⟩ | hke <;> rw [hke]
  · intro ho
    unfold Arena.owner? at ho
    dsimp only at ho
    have hstrips : ∀ kind, a.kind? (a.unparen base) = some kind → (∀ x, kind ≠ .paren x) →
        a.kind? ⟨n⟩ ≠ some kind → a.Strips n base (a.unparen base) := by
      intro kind hkind hne hother
      have hs : a.Strips a.size base (a.unparen base) := strips_of_unparenFrom rfl hkind hne
      rw [hsize] at hs
      refine hs.pred hlast fun he => hother ?_
      rw [← he, hkind]
    split at ho
    · next name role value refs hkind =>
      cases ho
      refine ⟨base, _, hb, hstrips _ hkind (by simp) ?_, .inl ⟨⟨name, role, value, refs, hkind⟩, rfl⟩⟩
      rw [hk]
      cases value? <;> simp [DeclKind.access]
    · next target hkind =>
      cases ho
      refine ⟨base, _, hb, hstrips _ hkind (by simp) ?_, .inr hkind⟩
      rw [hk]
      cases value? <;> simp [DeclKind.access]
    · cases ho

end Arena

end LuaInfer
