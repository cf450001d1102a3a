import LuaInfer.Proofs.Built
import Mathlib.Logic.Relation
/-!
# What building a program does

A declaration that names something is made first and bound to what it names afterwards. A `Draft` is a program with the
number of its declarations that are bound: all of them, or all but the last. An `Edit` is one step of the work: a text is
stored, a declaration is made, something is noted that no name depends on, the fields of a table become members of a local,
or the last declaration is bound.

`Build.Edits` says that a construction step consists of edits, and `Command.run_edits` that every command does. So whatever
edits keep is true of every program that a script builds (`Program.Built.edits`).
-/

namespace LuaInfer

namespace DeclKind

/-- Declarations that are bound to what they name once they are made. -/
def binds : DeclKind → Bool
  | getGlobal .. | setGlobal .. | getMember .. | setMember .. | docClass .. => true
  | _ => false

/-- The name or the key by which a declaration is bound. -/
def naming? : DeclKind → Option Atom
  | getGlobal name => some name
  | setGlobal name _ => some name
  | getMember _ member => member.key?
  | setMember _ member _ => member.key?
  | tableField key _ => some key
  | docClass name .. => some name
  | _ => none

/-- The documented fields of a class. -/
def classFields : DeclKind → List DeclId
  | docClass _ _ fields _ => fields
  | _ => []

/-- What a declaration is when it is made: without the uses of a local, the returns of a function, and the fields of a
class and what it stands above, which are noted later. -/
def core : DeclKind → DeclKind
  | function params _ isMethod => function params [] isMethod
  | localVar name role value _ => localVar name role value []
  | docClass name supers _ _ => docClass name supers [] []
  | kind => kind

/-- A read of a member, or an assignment to it. -/
def access (base : DeclId) (member : Member) : Option DeclId → DeclKind
  | some value => setMember base member value
  | none => getMember base member

end DeclKind

theorem Interner.text?_lookup {t : Interner} {text : String} {a : Atom} (h : t.lookup text = some a) :
    t.texts[a.index]? = some text := by
  obtain ⟨i, hi, rfl⟩ := Option.map_eq_some_iff.1 h
  rw [Array.idxOf?_eq_map_finIdxOf?_val] at hi
  obtain ⟨j, hj, rfl⟩ := Option.map_eq_some_iff.1 hi
  exact Array.getElem?_eq_some_iff.2 ⟨j.2, (Array.finIdxOf?_eq_some_iff.1 hj).1⟩

namespace Arena

/-- It is a field of a table constructor. -/
def IsField (a : Arena) (d : DeclId) : Prop := ∃ key value, a.kind? d = some (.tableField key value)

/-- It is a documented field. -/
def IsDocField (a : Arena) (d : DeclId) : Prop := ∃ name ty, a.kind? d = some (.docField name ty)

variable {a : Arena} {d e : DeclId} {kind : DeclKind} {f : Decl → Decl}

theorem kind?_push : (a.push kind).2.kind? e = if e = ⟨a.size⟩ then some kind else a.kind? e := by
  unfold kind?
  rw [decl?_push]
  change Option.map _ (if e = ⟨a.size⟩ then _ else _) = _
  split <;> rfl

theorem size_push : (a.push kind).2.size = a.size + 1 := by simp [size, push]

@[simp] theorem size_modify : (a.modify d f).size = a.size := by simp [size, modify]

theorem index_lt_of_kind? (h : a.kind? d = some kind) : d.index < a.size := by
  obtain ⟨decl, hd, -⟩ := Option.map_eq_some_iff.1 h
  exact (Array.getElem?_eq_some_iff.1 hd).1

theorem kind?_modify (h : ∀ decl, (f decl).kind = decl.kind) : (a.modify d f).kind? e = a.kind? e := by
  unfold kind?
  rw [decl?_modify]
  split
  · cases a.decl? e with
    | none => rfl
    | some decl => exact congrArg some (h decl)
  · rfl

end Arena

namespace Program

/-- A declaration of this kind can be made: its name is stored, its fields are fields, and it is a class without fields if
it is one. -/
structure Admits (p : Program) (kind : DeclKind) : Prop where
  stored : ∀ name, kind.naming? = some name → name.index < p.interner.size
  fields : ∀ f ∈ kind.tableFields, p.arena.IsField f
  bare : kind.classFields = []

/-- Binds a declaration to a global, of which it is a site if it assigns. The registry is one that holds the global. -/
def link (p : Program) (target : GlobalId × Registry) (d : DeclId) (assigns : Bool) : Program :=
  { p with
    arena := p.arena.modify d fun decl => { decl with global := some target.1 }
    globals := if assigns then target.2.addSite target.1 d else target.2 }

/-- Records an access under the identity that it names. -/
def identify (p : Program) (access base : DeclId) (key : Atom) (assigns : Bool) : Program :=
  match p.arena.owner? base with
  | some owner => { p with identities := p.identities.record owner key access assigns }
  | none => p

/-- Binds an access to the identity and to the global that it names. -/
def bindAccess (p : Program) (access base : DeclId) (key? : Option Atom) (assigns : Bool) : Program :=
  match key? with
  | none => p
  | some key =>
    match p.arena.globalOf? base with
    | some g => (p.identify access base key assigns).link (p.globals.ensureField g key) access assigns
    | none => p.identify access base key assigns

/-- The fields of a table given to a local, recorded one after the other. -/
def recordFields (p : Program) (owner value : DeclId) : Program :=
  { p with identities := (p.arena.keyedFields value).foldl (fun t (key, f) => t.record owner key f true) p.identities }

/-- Members of a global, bound one after the other. -/
def linkFields (p : Program) (g : GlobalId) (fields : List (Atom × DeclId)) : Program :=
  fields.foldl (fun q (key, f) => q.link (q.globals.ensureField g key) f true) p

end Program

/-- A program under construction, with the number of its declarations that are bound. -/
structure Draft where
  program : Program
  bound : Nat

/-- A program in which every declaration is bound. -/
def Draft.of (p : Program) : Draft := ⟨p, p.arena.size⟩

/-- One step of building a program. -/
inductive Edit : Draft → Draft → Prop
  | intern {p : Program} {n : Nat} (text : String) :
      Edit ⟨p, n⟩ ⟨{ p with interner := (p.interner.intern text).2 }, n⟩
  /-- Makes a declaration that names nothing. -/
  | make {p : Program} {kind : DeclKind} : kind.binds = false → p.Admits kind →
      Edit ⟨p, p.arena.size⟩ ⟨{ p with arena := (p.arena.push kind).2 }, p.arena.size + 1⟩
  /-- Makes a declaration that is still to be bound. -/
  | start {p : Program} {kind : DeclKind} : kind.binds = true → p.Admits kind →
      Edit ⟨p, p.arena.size⟩ ⟨{ p with arena := (p.arena.push kind).2 }, p.arena.size⟩
  /-- Notes something at a declaration: its parent, an annotation, a use, a return, a documented field. -/
  | note {p : Program} {n : Nat} {d : DeclId} {f : Decl → Decl} :
      (∀ decl, (f decl).kind.core = decl.kind.core ∧ (f decl).global = decl.global ∧
        ∀ x ∈ (f decl).kind.classFields, x ∈ decl.kind.classFields ∨ p.arena.IsDocField x) →
      Edit ⟨p, n⟩ ⟨{ p with arena := p.arena.modify d f }, n⟩
  /-- The fields of a table become members of a local. -/
  | record {p : Program} {n : Nat} (owner value : DeclId) : Edit ⟨p, n⟩ ⟨p.recordFields owner value, n⟩
  /-- Binds a read of a member or an assignment to it. -/
  | access {p : Program} {n : Nat} {base : DeclId} {member : Member} {value? : Option DeclId} :
      p.arena.size = n + 1 → p.arena.kind? ⟨n⟩ = some (.access base member value?) →
      Edit ⟨p, n⟩ ⟨p.bindAccess ⟨n⟩ base member.key? value?.isSome, n + 1⟩
  /-- Binds a read of a global. -/
  | read {p : Program} {n : Nat} {name : Atom} : p.arena.size = n + 1 → p.arena.kind? ⟨n⟩ = some (.getGlobal name) →
      Edit ⟨p, n⟩ ⟨p.link (p.globals.ensure .var name) ⟨n⟩ false, n + 1⟩
  /-- Binds an assignment to a global, and the fields of a table that is assigned. -/
  | assign {p : Program} {n : Nat} {name : Atom} {value : DeclId} :
      p.arena.size = n + 1 → p.arena.kind? ⟨n⟩ = some (.setGlobal name value) →
      Edit ⟨p, n⟩ ⟨(p.link (p.globals.ensure .var name) ⟨n⟩ true).linkFields (p.globals.ensure .var name).1
        (p.arena.keyedFields value), n + 1⟩
  /-- Binds a class. -/
  | declare {p : Program} {n : Nat} {name : Atom} {supers fields sources : List DeclId} :
      p.arena.size = n + 1 → p.arena.kind? ⟨n⟩ = some (.docClass name supers fields sources) →
      Edit ⟨p, n⟩ ⟨p.link (p.globals.ensure .type name) ⟨n⟩ true, n + 1⟩

/-- Edits one after the other. -/
abbrev Edit.Run : Draft → Draft → Prop := Relation.ReflTransGen Edit

/-! ## What edits leave as it is -/

namespace Program

/-- Texts stay stored, and declarations stay what they are. -/
structure Grows (p p' : Program) : Prop where
  interner : p.interner.size ≤ p'.interner.size
  size : p.arena.size ≤ p'.arena.size
  core : ∀ d kind, p.arena.kind? d = some kind → ∃ kind', p'.arena.kind? d = some kind' ∧ kind'.core = kind.core

variable {p p' p'' : Program}

theorem Grows.refl (p : Program) : p.Grows p := ⟨Nat.le_refl _, Nat.le_refl _, fun _ kind h => ⟨kind, h, rfl⟩⟩

theorem Grows.trans (h : p.Grows p') (h' : p'.Grows p'') : p.Grows p'' := by
  refine ⟨Nat.le_trans h.interner h'.interner, Nat.le_trans h.size h'.size, fun d kind hk => ?_⟩
  obtain ⟨kind', hk', hc⟩ := h.core d kind hk
  obtain ⟨kind'', hk'', hc'⟩ := h'.core d kind' hk'
  exact ⟨kind'', hk'', hc'.trans hc⟩

/-- Texts and declarations are the same, and what is bound to what may differ. -/
structure Rebinds (p p' : Program) : Prop where
  interner : p'.interner = p.interner
  size : p'.arena.size = p.arena.size
  kind? : ∀ d, p'.arena.kind? d = p.arena.kind? d

theorem Rebinds.refl (p : Program) : p.Rebinds p := ⟨rfl, rfl, fun _ => rfl⟩

theorem Rebinds.trans (h : p.Rebinds p') (h' : p'.Rebinds p'') : p.Rebinds p'' :=
  ⟨h'.interner.trans h.interner, h'.size.trans h.size, fun d => (h'.kind? d).trans (h.kind? d)⟩

theorem Rebinds.grows (h : p.Rebinds p') : p.Grows p' :=
  ⟨Nat.le_of_eq (by rw [h.interner]), Nat.le_of_eq h.size.symm, fun d kind hk => ⟨kind, by rw [h.kind?, hk], rfl⟩⟩

theorem Rebinds.keyedFields (h : p.Rebinds p') (value : DeclId) :
    p'.arena.keyedFields value = p.arena.keyedFields value := by
  simp only [Arena.keyedFields, Arena.key?, h.kind?]

theorem rebinds_link (target : GlobalId × Registry) (d : DeclId) (assigns : Bool) : p.Rebinds (p.link target d assigns) :=
  ⟨rfl, Arena.size_modify, fun _ => Arena.kind?_modify fun _ => rfl⟩

@[simp] theorem arena_identify (access base : DeclId) (key : Atom) (assigns : Bool) :
    (p.identify access base key assigns).arena = p.arena := by
  unfold identify
  split <;> rfl

@[simp] theorem globals_identify (access base : DeclId) (key : Atom) (assigns : Bool) :
    (p.identify access base key assigns).globals = p.globals := by
  unfold identify
  split <;> rfl

theorem rebinds_identify (access base : DeclId) (key : Atom) (assigns : Bool) :
    p.Rebinds (p.identify access base key assigns) := by
  unfold identify
  split <;> exact ⟨rfl, rfl, fun _ => rfl⟩

theorem rebinds_bindAccess (access base : DeclId) (key? : Option Atom) (assigns : Bool) :
    p.Rebinds (p.bindAccess access base key? assigns) := by
  unfold bindAccess
  cases key? with
  | none => exact .refl p
  | some key =>
    dsimp only
    split
    · exact (rebinds_identify ..).trans (rebinds_link ..)
    · exact rebinds_identify ..

theorem rebinds_linkFields (g : GlobalId) (fields : List (Atom × DeclId)) : p.Rebinds (p.linkFields g fields) := by
  induction fields generalizing p with
  | nil => exact .refl p
  | cons entry fields ih => exact (rebinds_link ..).trans ih

end Program

theorem Edit.grows {x y : Draft} (h : Edit x y) : x.program.Grows y.program := by
  cases h with
  | intern text =>
    refine ⟨?_, Nat.le_refl _, fun d kind h => ⟨kind, h, rfl⟩⟩
    simp only [Interner.intern]
    split
    · exact Nat.le_refl _
    · simp [Interner.size]
  | make | start =>
    refine ⟨Nat.le_refl _, by simp [Arena.size_push], fun d kind hk => ⟨kind, ?_, rfl⟩⟩
    rw [Arena.kind?_push, if_neg, ← hk]
    rintro rfl
    exact Nat.lt_irrefl _ (Arena.index_lt_of_kind? hk)
  | @note p n d f hf =>
    refine ⟨Nat.le_refl _, Nat.le_of_eq Arena.size_modify.symm, fun e kind hk => ?_⟩
    obtain ⟨decl, hd, rfl⟩ := Option.map_eq_some_iff.1 hk
    rw [Arena.kind?, Arena.decl?_modify]
    split
    · exact ⟨(f decl).kind, by rw [hd]; rfl, (hf decl).1⟩
    · exact ⟨decl.kind, by rw [hd]; rfl, rfl⟩
  | record owner value => exact ⟨Nat.le_refl _, Nat.le_refl _, fun _ kind h => ⟨kind, h, rfl⟩⟩
  | access => exact (Program.rebinds_bindAccess ..).grows
  | read | declare => exact (Program.rebinds_link ..).grows
  | assign => exact ((Program.rebinds_link ..).trans (Program.rebinds_linkFields ..)).grows

theorem Edit.Run.grows {x y : Draft} (h : Edit.Run x y) : x.program.Grows y.program := by
  induction h with
  | refl => exact .refl _
  | tail _ h ih => exact ih.trans h.grows

/-! ## Construction steps -/

/-- What a construction step may know of a program: that a text is stored, that a declaration is a field. -/
inductive Fact where
  | stored (a : Atom)
  | field (d : DeclId)
  | docField (d : DeclId)

def Fact.Holds (p : Program) : Fact → Prop
  | stored a => a.index < p.interner.size
  | field d => p.arena.IsField d
  | docField d => p.arena.IsDocField d

theorem Fact.Holds.grow {p p' : Program} {x : Fact} (h : x.Holds p) (hg : p.Grows p') : x.Holds p' := by
  cases x with
  | stored a => exact Nat.lt_of_lt_of_le h hg.interner
  | field d =>
    obtain ⟨key, value, hk⟩ := h
    obtain ⟨kind, hk', hc⟩ := hg.core d _ hk
    refine ⟨key, value, ?_⟩
    cases kind <;> simp_all [DeclKind.core]
  | docField d =>
    obtain ⟨name, ty, hk⟩ := h
    obtain ⟨kind, hk', hc⟩ := hg.core d _ hk
    refine ⟨name, ty, ?_⟩
    cases kind <;> simp_all [DeclKind.core]

/-- A step consists of edits. It may rely on the facts of `X`, and gives those that `Y` takes from its answer. -/
def Build.Edits {α : Type} (X : List Fact) (m : Build α) (Y : α → List Fact) : Prop :=
  ∀ p : Program, (∀ x ∈ X, x.Holds p) →
    Edit.Run (.of p) (.of (m.run p).2) ∧ ∀ y ∈ Y (m.run p).1, y.Holds (m.run p).2

namespace Build

variable {α β : Type} {X X' : List Fact} {m : Build α} {Y Y' : α → List Fact}

namespace Edits

theorem mono (h : Edits X m Y) (hX : ∀ x ∈ X, x ∈ X') (hY : ∀ a, ∀ y ∈ Y' a, y ∈ Y a) : Edits X' m Y' :=
  fun p hx => have ⟨hk, hy⟩ := h p fun x hm => hx x (hX x hm)
    ⟨hk, fun y hm => hy y (hY _ y hm)⟩

theorem forget (h : Edits X m Y) : Edits X m fun _ => [] := h.mono (fun _ h => h) (by simp)

theorem bind {f : α → Build β} {Z : β → List Fact} (h : Edits X m Y) (hf : ∀ a, Edits (X ++ Y a) (f a) Z) :
    Edits X (m >>= f) Z := by
  intro p hx
  obtain ⟨hk, hy⟩ := h p hx
  have hpre : ∀ x ∈ X ++ Y (m.run p).1, x.Holds (m.run p).2 := by
    intro x hm
    rcases List.mem_append.1 hm with hm | hm
    · exact (hx x hm).grow hk.grows
    · exact hy x hm
  obtain ⟨hk', hz⟩ := hf _ _ hpre
  exact ⟨hk.trans hk', hz⟩

theorem pure {a : α} (h : ∀ y ∈ Y a, y ∈ X) : Edits X (Pure.pure a : Build α) Y :=
  fun _ hx => ⟨.refl, fun y hm => hx y (h y hm)⟩

theorem map {g : α → β} (h : Edits X m fun _ => []) : Edits X (g <$> m) fun _ => [] :=
  fun p hx => ⟨(h p hx).1, by simp⟩

theorem forM {f : α → Build PUnit} {xs : List α} (h : ∀ x ∈ xs, Edits X (f x) fun _ => []) :
    Edits X (xs.forM f) fun _ => [] := by
  induction xs with
  | nil => exact .pure (by simp)
  | cons x xs ih =>
    exact .bind (h x (by simp)) fun _ => by simpa using ih fun y hy => h y (by simp [hy])

theorem mapM {f : α → Build β} {Z : β → List Fact} {xs : List α} (h : ∀ x ∈ xs, Edits X (f x) Z) :
    Edits X (xs.mapM f) fun bs => bs.flatMap Z := by
  induction xs generalizing X with
  | nil => exact .pure (by simp)
  | cons x xs ih =>
    rw [List.mapM_cons]
    refine .bind (h x (by simp)) fun b => .bind (ih fun y hy => ?_) fun bs => .pure (by simp +contextual)
    exact (h y (by simp [hy])).mono (by simp +contextual) fun _ _ hm => hm

end Edits

theorem get_edits : Edits X (get : Build Program) fun _ => [] := fun _ _ => ⟨.refl, by simp⟩

theorem intern_edits (text : String) : Edits X (intern text) fun a => [.stored a] := by
  refine fun p _ => ⟨.single (.intern text), fun y hy => ?_⟩
  cases List.mem_singleton.1 hy
  change (p.interner.intern text).1.index < (p.interner.intern text).2.size
  unfold Interner.intern
  split
  · next a ha => exact (Array.getElem?_eq_some_iff.1 (Interner.text?_lookup ha)).1
  · simp [Interner.size]

theorem note_edits {d : DeclId} {f : Decl → Decl}
    (hf : ∀ decl, (f decl).kind.core = decl.kind.core ∧ (f decl).global = decl.global ∧
      ∀ x ∈ (f decl).kind.classFields, x ∈ decl.kind.classFields ∨ .docField x ∈ X) :
    Edits X (modifyArena (·.modify d f)) fun _ => [] := by
  refine fun p hx => ⟨?_, by simp⟩
  have hedit : Edit (.of p) ⟨{ p with arena := p.arena.modify d f }, p.arena.size⟩ :=
    .note fun decl => ⟨(hf decl).1, (hf decl).2.1, fun x hm => ((hf decl).2.2 x hm).imp_right (hx (.docField x))⟩
  exact .single (by rwa [← Arena.size_modify] at hedit)

theorem setParent_edits (child parent : DeclId) : Edits X (setParent child parent) fun _ => [] :=
  note_edits fun _ => ⟨rfl, rfl, fun _ hm => .inl hm⟩

theorem noteKind_edits (d : DeclId) {f : DeclKind → DeclKind}
    (h : ∀ kind, (f kind).core = kind.core ∧
      ∀ x ∈ (f kind).classFields, x ∈ kind.classFields ∨ .docField x ∈ X) :
    Edits X (modifyArena (·.modifyKind d f)) fun _ => [] :=
  note_edits fun decl => ⟨(h decl.kind).1, rfl, (h decl.kind).2⟩

theorem addRef_edits (target use : DeclId) : Edits X (addRef target use) fun _ => [] :=
  noteKind_edits target fun kind => by cases kind <;> exact ⟨rfl, fun _ hm => .inl hm⟩

theorem bindDoc_edits (doc target : DeclId) : Edits X (bindDoc doc target) fun _ => [] :=
  .bind (note_edits fun _ => ⟨rfl, rfl, fun _ hm => .inl hm⟩) fun _ =>
    noteKind_edits doc fun kind => by cases kind <;> exact ⟨rfl, fun _ hm => .inl hm⟩

/-- Noting the parents of children, whatever is bound. -/
theorem setParents_run (children : List DeclId) (d : DeclId) (p : Program) (n : Nat) :
    ∃ a, ((children.forM (setParent · d)).run p).2 = { p with arena := a } ∧
      Edit.Run ⟨p, n⟩ ⟨{ p with arena := a }, n⟩ ∧ a.size = p.arena.size ∧ ∀ e, a.kind? e = p.arena.kind? e := by
  induction children generalizing p with
  | nil => exact ⟨p.arena, rfl, .refl, rfl, fun _ => rfl⟩
  | cons child children ih =>
    obtain ⟨a, hrun, hedits, hsize, hkind⟩ :=
      ih { p with arena := p.arena.modify child fun decl => { decl with parent := some d } }
    have hfirst : Edit ⟨p, n⟩ ⟨{ p with arena := p.arena.modify child fun decl => { decl with parent := some d } }, n⟩ :=
      .note fun _ => ⟨rfl, rfl, fun _ hm => .inl hm⟩
    exact ⟨a, hrun, .head hfirst hedits, hsize.trans Arena.size_modify,
      fun e => (hkind e).trans (Arena.kind?_modify fun _ => rfl)⟩

/-- A kind whose names and fields are among the facts. -/
structure Known (X : List Fact) (kind : DeclKind) : Prop where
  stored : ∀ name, kind.naming? = some name → .stored name ∈ X
  fields : ∀ f ∈ kind.tableFields, .field f ∈ X
  bare : kind.classFields = []

theorem Known.admits {kind : DeclKind} {p : Program} (h : Known X kind) (hx : ∀ x ∈ X, x.Holds p) : p.Admits kind :=
  ⟨fun name hn => hx _ (h.stored name hn), fun f hf => hx _ (h.fields f hf), h.bare⟩

theorem known_plain {kind : DeclKind} (hn : kind.naming? = none) (hf : kind.tableFields = []) (hc : kind.classFields = []) :
    Known X kind :=
  ⟨by simp [hn], by simp [hf], hc⟩

theorem push_edits {kind : DeclKind} (hb : kind.binds = false) (hk : Known X kind) :
    Edits X (push kind) fun _ => [] := by
  refine fun p hx => ⟨?_, by simp⟩
  have hedit : Edit (.of p) ⟨{ p with arena := (p.arena.push kind).2 }, p.arena.size + 1⟩ := .make hb (hk.admits hx)
  exact .single (by rwa [← Arena.size_push] at hedit)

theorem kind?_add (kind : DeclKind) (p : Program) :
    ((add kind).run p).1 = ⟨p.arena.size⟩ ∧ ((add kind).run p).2.arena.kind? ⟨p.arena.size⟩ = some kind ∧
      ((add kind).run p).2.arena.size = p.arena.size + 1 := by
  obtain ⟨a, hrun, -, hsize, hkind⟩ :=
    setParents_run kind.children ⟨p.arena.size⟩ { p with arena := (p.arena.push kind).2 } 0
  have hprog : ((add kind).run p).2 = { p with arena := a } := hrun
  refine ⟨rfl, ?_, ?_⟩ <;> rw [hprog]
  · exact (hkind _).trans (by rw [Arena.kind?_push, if_pos rfl])
  · exact hsize.trans Arena.size_push

theorem add_edits {kind : DeclKind} (hb : kind.binds = false) (hk : Known X kind) :
    Edits X (add kind) fun _ => [] :=
  .bind (push_edits hb hk) fun _ => .bind (.forM fun _ _ => setParent_edits _ _) fun _ => .pure (by simp)

/-- A declaration that names something, made and not yet bound. -/
theorem add_starts {kind : DeclKind} {p : Program} (hb : kind.binds = true) (ha : p.Admits kind) :
    Edit.Run (.of p) ⟨((add kind).run p).2, p.arena.size⟩ := by
  obtain ⟨a, hrun, hedits, -, -⟩ :=
    setParents_run kind.children ⟨p.arena.size⟩ { p with arena := (p.arena.push kind).2 } p.arena.size
  have hprog : ((add kind).run p).2 = { p with arena := a } := hrun
  rw [hprog]
  exact .head (.start hb ha) hedits

/-- A declaration that names something is made, and bound by one edit. -/
theorem bound_edits (kind : DeclKind) {m : Build DeclId} (link : Program → DeclId → Program) (hb : kind.binds = true)
    (hk : Known X kind) (hm : ∀ p, (m.run p).2 = link ((add kind).run p).2 ((add kind).run p).1)
    (hlink : ∀ p d, p.arena.size = d.index + 1 → p.arena.kind? d = some kind →
      Edit ⟨p, d.index⟩ ⟨link p d, d.index + 1⟩ ∧ (link p d).arena.size = p.arena.size) :
    Edits X m fun _ => [] := by
  refine fun p hx => ⟨(add_starts hb (hk.admits hx)).tail ?_, by simp⟩
  obtain ⟨hd, hkind, hsize⟩ := kind?_add kind p
  obtain ⟨hedit, hsame⟩ := hlink ((add kind).run p).2 ⟨p.arena.size⟩ hsize hkind
  rw [Draft.of, hm, hd, hsame, hsize]
  exact hedit

theorem linkMember_run (d base : DeclId) (key? : Option Atom) (assigns : Bool) (p : Program) :
    ((linkMember d base key? assigns).run p).2 = p.bindAccess d base key? assigns := by
  cases key? with
  | none => rfl
  | some key =>
    unfold Program.bindAccess Program.identify linkMember
    cases ho : p.arena.owner? base <;> cases hg : p.arena.globalOf? base <;> cases assigns <;>
      simp [ho, hg, record, ensureField, linkGlobal, addSite, modifyArena, Program.link] <;> rfl

theorem forIn_run {f : α → PUnit → Build (ForInStep PUnit)} {g : Program → α → Program}
    (h : ∀ x p, (f x ⟨⟩).run p = (.yield ⟨⟩, g p x)) (xs : List α) (p : Program) :
    ((forIn xs ⟨⟩ f).run p).2 = xs.foldl g p := by
  induction xs generalizing p with
  | nil => rfl
  | cons x xs ih =>
    rw [List.forIn_cons, StateT.run_bind, h]
    exact ih (g p x)

theorem recordTableFields_run (owner value : DeclId) (p : Program) :
    ((recordTableFields owner value).run p).2 = p.recordFields owner value := by
  have hloop : ∀ (fields : List (Atom × DeclId)) (q : Program),
      fields.foldl (fun q (entry : Atom × DeclId) => { q with identities := q.identities.record owner entry.1 entry.2 true }) q =
        { q with identities := fields.foldl (fun t entry => t.record owner entry.1 entry.2 true) q.identities } := by
    intro fields q
    induction fields generalizing q with
    | nil => rfl
    | cons entry fields ih => exact ih _
  exact (forIn_run (fun _ _ => rfl) _ p).trans (hloop _ p)

theorem registerTableFields_run (g : GlobalId) (value : DeclId) (p : Program) :
    ((registerTableFields g value).run p).2 = p.linkFields g (p.arena.keyedFields value) :=
  forIn_run (fun _ _ => rfl) _ p

theorem recordTableFields_edits (owner value : DeclId) : Edits X (recordTableFields owner value) fun _ => [] := by
  refine fun p _ => ⟨?_, by simp⟩
  rw [recordTableFields_run]
  exact .single (.record owner value)

/-- The fields of a table, made one after the other. -/
theorem addFields_edits {make : Atom → DeclId → DeclKind} {Z : DeclId → List Fact}
    (h : ∀ key content, Edits (X ++ [.stored key]) (add (make key content)) Z) (fields : List (String × DeclId)) :
    Edits X (addFields make fields) fun ds => ds.flatMap Z :=
  .mapM fun _ _ => .bind (intern_edits _) fun _ => h _ _

theorem addField_edits (key : Atom) (content : DeclId) (h : .stored key ∈ X) :
    Edits X (add (.tableField key content)) fun d => [.field d] := by
  have hk : Known X (.tableField key content) := ⟨by simpa [DeclKind.naming?] using h, by simp [DeclKind.tableFields], rfl⟩
  refine fun p hx => ⟨(add_edits rfl hk p hx).1, fun y hy => ?_⟩
  cases List.mem_singleton.1 hy
  exact ⟨key, content, (kind?_add (.tableField key content) p).2.1⟩

theorem addDocField_edits (name : Atom) (ty : DeclId) : Edits X (add (.docField name ty)) fun d => [.docField d] := by
  refine fun p hx => ⟨(add_edits rfl (known_plain rfl rfl rfl) p hx).1, fun y hy => ?_⟩
  cases List.mem_singleton.1 hy
  exact ⟨name, ty, (kind?_add (.docField name ty) p).2.1⟩

theorem addParam_edits (role : Role) (name : String) : Edits X (addParam role name) fun _ => [] :=
  .bind (intern_edits _) fun _ => push_edits rfl (known_plain rfl rfl rfl)

theorem addParams_edits (names : List String) : Edits X (names.mapM (addParam .param)) fun _ => [] :=
  (Edits.mapM fun _ _ => addParam_edits _ _).forget

theorem addMember_edits (base : DeclId) (member : Member) (value? : Option DeclId)
    (h : ∀ key, member.key? = some key → .stored key ∈ X) : Edits X (addMember base member value?) fun _ => [] := by
  have hlink : ∀ (p : Program) (d : DeclId), p.arena.size = d.index + 1 →
      p.arena.kind? d = some (.access base member value?) →
      Edit ⟨p, d.index⟩ ⟨p.bindAccess d base member.key? value?.isSome, d.index + 1⟩ ∧
        (p.bindAccess d base member.key? value?.isSome).arena.size = p.arena.size :=
    fun p d hs hk => ⟨.access hs hk, (Program.rebinds_bindAccess ..).size⟩
  have hk : Known X (.access base member value?) := by
    cases value? <;> exact ⟨h, by simp [DeclKind.access, DeclKind.tableFields], rfl⟩
  have hrun : ∀ p, ((addMember base member value?).run p).2 = Program.bindAccess ((add (.access base member value?)).run p).2
      ((add (.access base member value?)).run p).1 base member.key? value?.isSome := by
    intro p
    cases value? <;> exact linkMember_run ..
  exact bound_edits _ (fun p d => p.bindAccess d base member.key? value?.isSome) (by cases value? <;> rfl) hk hrun hlink

theorem addNameToken_edits (access : DeclId) : Edits X (addNameToken access) fun _ => [] := by
  refine .bind get_edits fun p => ?_
  split
  · exact .pure (by simp)
  · next kind _ =>
    split
    · refine .bind (Y := fun _ => []) ?_ fun d => .bind (setParent_edits _ _) fun _ => .pure (by simp)
      split <;> exact push_edits rfl (known_plain rfl rfl rfl)
    · exact .pure (by simp)

theorem addDoc_edits (target : DeclId) {kind : DeclKind} (hb : kind.binds = false) (hn : kind.naming? = none)
    (hf : kind.tableFields = []) (hc : kind.classFields = []) : Edits X (addDoc target kind) fun _ => [] :=
  .bind (add_edits hb (known_plain hn hf hc)) fun _ => .bind (bindDoc_edits _ _) fun _ => .pure (by simp)

theorem addTypeName_edits (name : String) : Edits X (addTypeName name) fun _ => [] :=
  .bind (intern_edits _) fun _ => add_edits rfl (known_plain rfl rfl rfl)

theorem addClass_edits (name : String) (supers : List String) : Edits X (addClass name supers) fun _ => [] := by
  refine .bind (intern_edits _) fun name => .bind (.forget (.mapM fun _ _ => addTypeName_edits _)) fun supers => ?_
  exact bound_edits (.docClass name supers [] []) (fun p d => p.link (p.globals.ensure .type name) d true) rfl
    ⟨by simp [DeclKind.naming?], by simp [DeclKind.tableFields], rfl⟩ (fun _ => rfl)
    fun p d hs hk => ⟨.declare hs hk, Arena.size_modify⟩

end Build

open Build in
/-- Every command consists of edits. -/
theorem Command.run_edits (c : Command) : Edits [] c.run fun _ => [] := by
  have plain {X : List Fact} {kind : DeclKind} (hb : kind.binds = false) (hn : kind.naming? = none)
      (hf : kind.tableFields = []) (hc : kind.classFields = []) : Edits X (add kind) fun _ => [] :=
    add_edits hb (known_plain hn hf hc)
  cases c with
  | nil | boolean _ | integer _ | number _ | call _ _ | varargs | paren _ | tyUnion _ | tyInteger _ | tyBoolean _
  | tyFunction _ _ | tyArray _ => exact (plain rfl rfl rfl rfl).map
  | string s | tyGeneric s | tyString s => exact .map (.bind (intern_edits _) fun _ => plain rfl rfl rfl rfl)
  | table fields =>
    have hfields : Edits [] (addFields .tableField fields) fun ds => ds.flatMap fun d => [.field d] :=
      addFields_edits (fun key content => addField_edits key content (by simp)) fields
    exact .map (.bind hfields fun ds => add_edits rfl ⟨by simp [DeclKind.naming?], by simp [DeclKind.tableFields], rfl⟩)
  | tyTable fields =>
    exact .map (.bind (addFields_edits (fun _ _ => plain rfl rfl rfl rfl) fields) fun _ => plain rfl rfl rfl rfl)
  | function params => exact .map (.bind (addParams_edits _) fun _ => plain rfl rfl rfl rfl)
  | method params =>
    exact .map (.bind (addParam_edits _ _) fun _ => .bind (addParams_edits _) fun _ => plain rfl rfl rfl rfl)
  | ret func exprs =>
    exact .map (.bind (plain rfl rfl rfl rfl) fun d => .bind (setParent_edits _ _) fun _ =>
      .bind (noteKind_edits func fun kind => by cases kind <;> exact ⟨rfl, fun _ hm => .inl hm⟩) fun _ => .pure (by simp))
  | localVar name value =>
    refine .map (.bind (intern_edits _) fun _ => .bind (plain rfl rfl rfl rfl) fun d =>
      .bind (Y := fun _ => []) ?_ fun _ => .pure (by simp))
    cases value with
    | none => exact .pure (by simp)
    | some v => exact recordTableFields_edits d v
  | getLocal target =>
    exact .map (.bind (push_edits rfl (known_plain rfl rfl rfl)) fun _ => .bind (addRef_edits _ _) fun _ => .pure (by simp))
  | setLocal target value =>
    exact .map (.bind (push_edits rfl (known_plain rfl rfl rfl)) fun _ => .bind (setParent_edits _ _) fun _ =>
      .bind (addRef_edits _ _) fun _ => .bind (recordTableFields_edits _ _) fun _ => .pure (by simp))
  | getGlobal name =>
    exact .map (.bind (intern_edits _) fun name =>
      bound_edits (.getGlobal name) (fun p d => p.link (p.globals.ensure .var name) d false) rfl
        ⟨by simp [DeclKind.naming?], by simp [DeclKind.tableFields], rfl⟩ (fun _ => rfl)
        fun p d hs hk => ⟨.read hs hk, Arena.size_modify⟩)
  | setGlobal name value =>
    refine .map (.bind (intern_edits _) fun name => ?_)
    refine bound_edits (.setGlobal name value) (fun p d => (p.link (p.globals.ensure .var name) d true).linkFields
        (p.globals.ensure .var name).1 (p.arena.keyedFields value)) rfl
      ⟨by simp [DeclKind.naming?], by simp [DeclKind.tableFields], rfl⟩ (fun p => ?_)
        fun p d hs hk => ⟨.assign hs hk, ((Program.rebinds_link ..).trans (Program.rebinds_linkFields ..)).size⟩
    rw [← (Program.rebinds_link _ _ true).keyedFields]
    exact registerTableFields_run ..
  | getField base key | setField base key _ | getMethod base key | setMethod base key _ =>
    exact .map (.bind (intern_edits _) fun _ => addMember_edits _ _ _ (by simp [Member.key?]))
  | getIndex base key | setIndex base key _ =>
    have hkey : Edits [] (key.mapM intern) fun k => k.toList.map .stored := by
      cases key with
      | none => exact .pure (by simp)
      | some k => exact intern_edits k
    exact .map (.bind hkey fun k => addMember_edits _ _ _ (by cases k <;> simp [Member.key?]))
  | select source index =>
    refine .map (.bind (push_edits rfl (known_plain rfl rfl rfl)) fun d => .bind get_edits fun p => ?_)
    dsimp only
    split
    · exact .bind (setParent_edits _ _) fun _ => .pure (by simp)
    · exact .pure (by simp)
  | docType | docReturn | docVararg | docOverload => exact .map (addDoc_edits _ rfl rfl rfl rfl)
  | docClass name supers => exact .map (addClass_edits _ _)
  | docField cls name ty =>
    refine .map (.bind (intern_edits _) fun name => .bind (addDocField_edits name ty) fun d => .bind (setParent_edits _ _) fun _ =>
      .bind (noteKind_edits cls fun kind => ?_) fun _ => .pure (by simp))
    cases kind with
    | docClass => exact ⟨rfl, by simp +contextual [DeclKind.classFields]⟩
    | _ => exact ⟨rfl, fun _ hm => .inl hm⟩
  | docParam func name ty =>
    exact .map (.bind (intern_edits _) fun _ => .bind (addDoc_edits _ rfl rfl rfl rfl) fun doc => .bind get_edits fun _ =>
      .bind (.forM fun _ _ => bindDoc_edits _ _) fun _ => .pure (by simp))
  | docGeneric func params =>
    exact .map (.bind (.forget (.mapM fun _ _ => intern_edits _)) fun _ => addDoc_edits _ rfl rfl rfl rfl)
  | tyName name => exact .map (addTypeName_edits _)
  | nameToken access => exact .map (addNameToken_edits _)
  | attach child parent => exact .bind (setParent_edits _ _) fun _ => .pure (by simp)
  | bind doc target => exact .bind (bindDoc_edits _ _) fun _ => .pure (by simp)
  | atom text => exact .map (.forget (intern_edits _))
  | askParams func => exact .bind get_edits fun _ => .pure (by simp)
  | askParam func name => exact .bind (intern_edits _) fun _ => .bind get_edits fun _ => .pure (by simp)
  | askSize => exact .bind get_edits fun _ => .pure (by simp)

namespace Program

theorem edits_build (p : Program) (script : List Command) : Edit.Run (.of p) (.of (p.build script).2) := by
  have hedits : Build.Edits [] (script.mapM Command.run) fun _ => [] := .forget (.mapM fun c _ => c.run_edits)
  exact (hedits p (by simp)).1

theorem edits_withBuiltins : Edit.Run (.of empty) (.of withBuiltins) := by
  have hedits : Build.Edits [] (builtinTypes.forM fun name => discard (Build.addClass name [])) fun _ => [] :=
    .forM fun _ _ => .map (Build.addClass_edits _ _)
  exact (hedits empty (by simp)).1

/-- Every program that a script builds is made from nothing by edits. -/
theorem Built.edits {p : Program} (h : p.Built) : Edit.Run (.of empty) (.of p) := by
  obtain ⟨script, rfl | rfl⟩ := h
  · exact edits_build empty script
  · exact edits_withBuiltins.trans (edits_build withBuiltins script)

/-! ## Texts and fields -/

/-- No text is stored twice, names are stored, and fields are fields. -/
structure Grounded (p : Program) : Prop where
  texts : p.interner.texts.toList.Nodup
  stored : ∀ d kind, p.arena.kind? d = some kind → ∀ name, kind.naming? = some name → name.index < p.interner.size
  fields : ∀ d kind, p.arena.kind? d = some kind → ∀ f ∈ kind.tableFields, p.arena.IsField f
  docFields : ∀ d kind, p.arena.kind? d = some kind → ∀ f ∈ kind.classFields, p.arena.IsDocField f

end Program

theorem Interner.nodup_intern {t : Interner} (h : t.texts.toList.Nodup) (text : String) :
    (t.intern text).2.texts.toList.Nodup := by
  unfold Interner.intern
  split
  · exact h
  · next hnone =>
    have hnew : text ∉ t.texts := Array.idxOf?_eq_none_iff.1 (Option.map_eq_none_iff.1 hnone)
    rw [Array.toList_push]
    exact List.nodup_append.2 ⟨h, by simp, by rintro a ha b hb rfl; simp_all⟩

namespace Edit

open Program

theorem grounded_push {p : Program} {kind : DeclKind} (h : p.Grounded) (ha : p.Admits kind)
    (hg : p.Grows { p with arena := (p.arena.push kind).2 }) : Grounded { p with arena := (p.arena.push kind).2 } := by
  have hfield : ∀ f, p.arena.IsField f → (p.arena.push kind).2.IsField f := fun f hf =>
    Fact.Holds.grow (x := .field f) hf hg
  have hdoc : ∀ f, p.arena.IsDocField f → (p.arena.push kind).2.IsDocField f := fun f hf =>
    Fact.Holds.grow (x := .docField f) hf hg
  refine ⟨h.texts, fun d k hk => ?_, fun d k hk f hf => hfield f ?_, fun d k hk f hf => hdoc f ?_⟩ <;>
    rw [Arena.kind?_push] at hk <;> split at hk
  · cases hk
    exact ha.stored
  · exact h.stored d k hk
  · cases hk
    exact ha.fields f hf
  · exact h.fields d k hk f hf
  · cases hk
    rw [ha.bare] at hf
    cases hf
  · exact h.docFields d k hk f hf

theorem grounded_rebinds {p p' : Program} (h : p.Grounded) (hr : p.Rebinds p') : p'.Grounded := by
  have hfield : ∀ f, p'.arena.IsField f ↔ p.arena.IsField f := fun f => by simp only [Arena.IsField, hr.kind?]
  have hdoc : ∀ f, p'.arena.IsDocField f ↔ p.arena.IsDocField f := fun f => by simp only [Arena.IsDocField, hr.kind?]
  refine ⟨hr.interner ▸ h.texts, fun d k hd => ?_, fun d k hd f hf => (hfield f).2 ?_,
    fun d k hd f hf => (hdoc f).2 ?_⟩ <;> rw [hr.kind?] at hd
  · exact hr.interner ▸ h.stored d k hd
  · exact h.fields d k hd f hf
  · exact h.docFields d k hd f hf

theorem naming?_core {kind kind' : DeclKind} (h : kind'.core = kind.core) :
    kind'.naming? = kind.naming? ∧ kind'.tableFields = kind.tableFields := by
  have hn : ∀ k : DeclKind, k.core.naming? = k.naming? ∧ k.core.tableFields = k.tableFields := by
    intro k
    cases k <;> exact ⟨rfl, rfl⟩
  rw [← (hn kind).1, ← (hn kind).2, ← h]
  exact ⟨(hn kind').1.symm, (hn kind').2.symm⟩

theorem grounded_note {p : Program} {d : DeclId} {f : Decl → Decl} (h : p.Grounded)
    (hf : ∀ decl, (f decl).kind.core = decl.kind.core ∧ (f decl).global = decl.global ∧
      ∀ x ∈ (f decl).kind.classFields, x ∈ decl.kind.classFields ∨ p.arena.IsDocField x)
    (hg : p.Grows { p with arena := p.arena.modify d f }) : Grounded { p with arena := p.arena.modify d f } := by
  have hold : ∀ e kind, (p.arena.modify d f).kind? e = some kind → ∃ old, p.arena.kind? e = some old ∧
      kind.core = old.core ∧ ∀ x ∈ kind.classFields, x ∈ old.classFields ∨ p.arena.IsDocField x := by
    intro e kind hk
    rw [Arena.kind?, Arena.decl?_modify] at hk
    split at hk
    · obtain ⟨_, hmap, rfl⟩ := Option.map_eq_some_iff.1 hk
      obtain ⟨decl, hd, rfl⟩ := Option.map_eq_some_iff.1 hmap
      exact ⟨decl.kind, Option.map_eq_some_iff.2 ⟨decl, hd, rfl⟩, (hf decl).1, (hf decl).2.2⟩
    · exact ⟨kind, hk, rfl, fun x hx => .inl hx⟩
  refine ⟨h.texts, fun e kind hk => ?_, fun e kind hk x hx => ?_, fun e kind hk x hx => ?_⟩ <;>
    obtain ⟨old, ho, hcore, hclass⟩ := hold e kind hk
  · rw [(naming?_core hcore).1]
    exact h.stored e old ho
  · rw [(naming?_core hcore).2] at hx
    exact Fact.Holds.grow (x := .field x) (h.fields e old ho x hx) hg
  · exact Fact.Holds.grow (x := .docField x) ((hclass x hx).elim (h.docFields e old ho x) id) hg

theorem grounded {x y : Draft} (h : Edit x y) (hx : x.program.Grounded) : y.program.Grounded := by
  have hg := h.grows
  cases h with
  | intern text =>
    exact ⟨Interner.nodup_intern hx.texts text, fun d kind hk name hn => Nat.lt_of_lt_of_le (hx.stored d kind hk name hn)
      hg.interner, hx.fields, hx.docFields⟩
  | make _ ha => exact grounded_push hx ha hg
  | start _ ha => exact grounded_push hx ha hg
  | note hf => exact grounded_note hx hf hg
  | record => exact ⟨hx.texts, hx.stored, hx.fields, hx.docFields⟩
  | access => exact grounded_rebinds hx (rebinds_bindAccess ..)
  | read | declare => exact grounded_rebinds hx (rebinds_link ..)
  | assign => exact grounded_rebinds hx ((rebinds_link ..).trans (rebinds_linkFields ..))

end Edit

theorem Program.grounded_empty : empty.Grounded := by
  refine ⟨by decide, ?_, ?_, ?_⟩ <;> intro d kind hk <;> simp [empty, Arena.kind?, Arena.decl?, Arena.empty] at hk

theorem Program.Built.grounded {p : Program} (h : p.Built) : p.Grounded := by
  have hrun : ∀ x y, Edit.Run x y → x.program.Grounded → y.program.Grounded := by
    intro x y hr hx
    induction hr with
    | refl => exact hx
    | tail _ h ih => exact h.grounded ih
  exact hrun _ _ h.edits grounded_empty

end LuaInfer
