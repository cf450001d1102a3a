import LuaInfer.Proofs.Draft
import Mathlib.Data.List.Forall2
/-!
# Dot notation

Most members can be written in more than one way. `t["k"]` is `t.k`, and `function obj:m(a)`, where the receiver is implicit,
is `obj.m = function(self, a)`, where it is the first parameter. For either other way (`Spelling`), `dotted` forgets whether it
was chosen: it turns declarations that are written in it into dot notation. Two programs are twins if they are the same in dot
notation and their implicit receivers have the name that an explicit one has (`Program.Twin`).

`Build.Mirrors` says that two construction steps take twins to twins with the same answer, and `Command.Respelled.mirrors`
says it of a command and the same command without a colon. `Program.Twin.build` is the result for scripts.
-/

namespace LuaInfer

/-- A way to write a member that dot notation can stand in place of. -/
inductive Spelling where
  /-- `t:k`, with an implicit receiver. -/
  | colon
  /-- `t["k"]`. -/
  | bracket

/-- Without colons, a receiver is a parameter. -/
def Role.dotted : Role → Role
  | receiver => param
  | role => role

/-- `t:k`, or `t["k"]`, becomes `t.k`. -/
def Member.dotted : Spelling → Member → Member
  | .colon, method key => field key
  | .bracket, index (some key) => field key
  | _, member => member

variable {ν : Spelling}

@[simp] theorem Member.key?_dotted (member : Member) : (member.dotted ν).key? = member.key? := by
  rcases ν with _ | _ <;> rcases member with _ | _ | _ | _ <;> rfl

namespace DeclKind

/-- The declaration in dot notation. A read of `t:k` stays, since a call of it passes `t`. -/
def dotted : Spelling → DeclKind → DeclKind
  | .colon, function params returns _ => function params returns false
  | .colon, localVar name role value refs => localVar name role.dotted value refs
  | .colon, setMember base member value => setMember base (member.dotted .colon) value
  | .colon, methodName key => fieldName key
  | .bracket, getMember base member => getMember base (member.dotted .bracket)
  | .bracket, setMember base member value => setMember base (member.dotted .bracket) value
  | _, kind => kind

/-- The name of an implicit receiver. -/
def receiverName? : DeclKind → Option Atom
  | localVar name .receiver .. => some name
  | _ => none

variable (kind : DeclKind)

@[simp] theorem children_dotted : (kind.dotted ν).children = kind.children := by
  cases ν <;> cases kind <;> rfl

@[simp] theorem key?_dotted : (kind.dotted ν).key? = kind.key? := by
  cases ν <;> cases kind with
  | setMember base member value => exact member.key?_dotted
  | getMember base member => first | rfl | exact member.key?_dotted
  | _ => rfl

@[simp] theorem value?_dotted : (kind.dotted ν).value? = kind.value? := by
  cases ν <;> cases kind <;> rfl

@[simp] theorem localName?_dotted : (kind.dotted ν).localName? = kind.localName? := by
  cases ν <;> cases kind <;> rfl

@[simp] theorem isLiteral_dotted : (kind.dotted ν).isLiteral = kind.isLiteral := by
  cases ν <;> cases kind <;> rfl

@[simp] theorem isAssignTarget_dotted : (kind.dotted ν).isAssignTarget = kind.isAssignTarget := by
  cases ν <;> cases kind <;> rfl

@[simp] theorem isParam_dotted : (kind.dotted ν).isParam = kind.isParam := by
  cases ν <;> cases kind with
  | localVar name role value refs => cases role <;> rfl
  | _ => rfl

/-- The name token of an access that has this key. -/
def nameToken (key : Atom) : DeclKind → DeclKind
  | getMember _ (.method _) | setMember _ (.method _) _ => methodName key
  | _ => fieldName key

/-- Without colons there is only one kind of name token, and no method is named in brackets. -/
theorem nameToken_dotted (key : Atom) : ((kind.dotted ν).nameToken key).dotted ν = (kind.nameToken key).dotted ν := by
  cases ν with
  | colon => unfold nameToken; split <;> split <;> rfl
  | bracket =>
    cases kind with
    | getMember base member | setMember base member value => rcases member with _ | _ | _ | _ <;> rfl
    | _ => rfl

end DeclKind

/-- The declaration in dot notation, with the same links. -/
def Decl.dotted (ν : Spelling) (decl : Decl) : Decl := { decl with kind := decl.kind.dotted ν }

namespace Arena

/-- All declarations in dot notation. -/
def dotted (ν : Spelling) (a : Arena) : Arena := ⟨a.decls.map (Decl.dotted ν)⟩

variable (a : Arena) (d : DeclId)

@[simp] theorem size_dotted : (a.dotted ν).size = a.size := by simp [size, dotted]

@[simp] theorem decl?_dotted : (a.dotted ν).decl? d = (a.decl? d).map (Decl.dotted ν) := by simp [decl?, dotted]

@[simp] theorem kind?_dotted : (a.dotted ν).kind? d = (a.kind? d).map (DeclKind.dotted ν) := by
  unfold kind?
  rw [decl?_dotted, Option.map_map, Option.map_map]
  rfl

/-- Behind a handle there is no declaration in either notation, or one and the same in dot notation. -/
@[elab_as_elim]
theorem dotted_cases {motive : Option DeclKind → Option DeclKind → Prop} (hnone : motive none none)
    (hsome : ∀ kind : DeclKind, motive (some (kind.dotted ν)) (some kind)) : motive ((a.dotted ν).kind? d) (a.kind? d) := by
  rw [kind?_dotted]
  cases a.kind? d with
  | none => exact hnone
  | some kind => exact hsome kind

/-! ## What the notation does not show in -/

@[simp] theorem parent?_dotted : (a.dotted ν).parent? d = a.parent? d := by
  unfold parent?
  rw [decl?_dotted]
  cases a.decl? d <;> rfl

@[simp] theorem docs_dotted : (a.dotted ν).docs d = a.docs d := by
  unfold docs
  rw [decl?_dotted]
  cases a.decl? d <;> rfl

@[simp] theorem global?_dotted : (a.dotted ν).global? d = a.global? d := by
  unfold global?
  rw [decl?_dotted]
  cases a.decl? d <;> rfl

@[simp] theorem key?_dotted : (a.dotted ν).key? d = a.key? d := by
  unfold key?
  exact a.dotted_cases d rfl fun kind => kind.key?_dotted

@[simp] theorem value?_dotted : (a.dotted ν).value? d = a.value? d := by
  unfold value?
  exact a.dotted_cases d rfl fun kind => kind.value?_dotted

@[simp] theorem localName?_dotted : (a.dotted ν).localName? d = a.localName? d := by
  unfold localName?
  exact a.dotted_cases d rfl fun kind => kind.localName?_dotted

@[simp] theorem isLiteral_dotted : (a.dotted ν).isLiteral d = a.isLiteral d := by
  unfold isLiteral
  exact a.dotted_cases d rfl fun kind => kind.isLiteral_dotted

@[simp] theorem isAssignTarget_dotted : (a.dotted ν).isAssignTarget d = a.isAssignTarget d := by
  unfold isAssignTarget
  exact a.dotted_cases d rfl fun kind => kind.isAssignTarget_dotted

@[simp] theorem isParam_dotted : (a.dotted ν).isParam d = a.isParam d := by
  unfold isParam
  exact a.dotted_cases d rfl fun kind => kind.isParam_dotted

@[simp] theorem params_dotted : (a.dotted ν).params d = a.params d := by
  unfold params
  exact a.dotted_cases d rfl fun kind => by cases ν <;> cases kind <;> rfl

@[simp] theorem isFunction_dotted : (a.dotted ν).isFunction d = a.isFunction d := by
  unfold isFunction
  exact a.dotted_cases d rfl fun kind => by cases ν <;> cases kind <;> rfl

@[simp] theorem unparen_dotted : (a.dotted ν).unparen d = a.unparen d := by
  have hfrom : ∀ fuel d, (a.dotted ν).unparenFrom fuel d = a.unparenFrom fuel d := by
    intro fuel
    induction fuel with
    | zero => intro d; rfl
    | succ fuel ih =>
      intro d
      unfold unparenFrom
      refine a.dotted_cases d rfl fun kind => ?_
      cases ν <;> cases kind with
      | paren expr => exact ih expr
      | _ => rfl
  unfold unparen
  rw [size_dotted, hfrom]

@[simp] theorem enclosingFunction?_dotted : (a.dotted ν).enclosingFunction? d = a.enclosingFunction? d := by
  have hclimb : ∀ fuel d?, (a.dotted ν).climbToFunction fuel d? = a.climbToFunction fuel d? := by
    intro fuel
    induction fuel with
    | zero => intro d?; cases d? <;> rfl
    | succ fuel ih =>
      intro d?
      cases d? with
      | none => rfl
      | some d => simp [climbToFunction, ih]
  unfold enclosingFunction?
  rw [size_dotted, parent?_dotted, hclimb]

@[simp] theorem owner?_dotted : (a.dotted ν).owner? d = a.owner? d := by
  unfold owner?
  simp only [unparen_dotted]
  exact a.dotted_cases (a.unparen d) rfl fun kind => by cases ν <;> cases kind <;> rfl

@[simp] theorem globalOf?_dotted : (a.dotted ν).globalOf? d = a.globalOf? d := by
  simp [globalOf?]

@[simp] theorem keyedFields_dotted : (a.dotted ν).keyedFields d = a.keyedFields d := by
  unfold keyedFields
  simp only [key?_dotted]
  exact a.dotted_cases d rfl fun kind => by cases ν <;> cases kind <;> rfl

/-! ## Changes -/

variable {a d}

theorem push_dotted (kind : DeclKind) : (a.push kind).2.dotted ν = ((a.dotted ν).push (kind.dotted ν)).2 := by
  simp [push, dotted, Decl.dotted]

theorem modify_dotted {f : Decl → Decl} (hf : ∀ decl, f (decl.dotted ν) = (f decl).dotted ν) :
    (a.modify d f).dotted ν = (a.dotted ν).modify d f := by
  unfold modify dotted
  congr 1
  apply Array.ext_getElem?
  intro i
  simp only [Array.getElem?_modify, Array.getElem?_map]
  split
  · cases a.decls[i]? with
    | none => rfl
    | some decl => exact congrArg some (hf decl).symm
  · rfl

end Arena

namespace Interner

/-- A new text comes after the stored ones. -/
theorem lookup_push (t : Interner) (new text : String) :
    (Interner.mk (t.texts.push new)).lookup text = (t.lookup text).or (if new = text then some ⟨t.texts.size⟩ else none) := by
  have hidx : ∀ xs : Array String, xs.idxOf? text = xs.findIdx? (· == text) := by
    intro xs
    rw [← xs.toArray_toList, List.idxOf?_toArray, List.findIdx?_toArray]
    rfl
  unfold lookup
  rw [hidx, hidx, Array.findIdx?_push, Option.map_or]
  congr 1
  by_cases h : new = text <;> simp [h]

/-- A text that is stored stays where it is. -/
theorem lookup_intern {t : Interner} {text : String} {a : Atom} (h : t.lookup text = some a) (new : String) :
    (t.intern new).2.lookup text = some a := by
  unfold intern
  split
  · exact h
  · rw [lookup_push, h, Option.some_or]

theorem lookup_intern_self (t : Interner) (text : String) : (t.intern text).2.lookup text = some (t.intern text).1 := by
  unfold intern
  split
  · next h => exact h
  · next h => rw [lookup_push, h, Option.none_or, if_pos rfl]

end Interner

namespace Program

/-- Every implicit receiver is named `self`. -/
def NamesReceivers (p : Program) : Prop :=
  ∀ d name, (p.arena.kind? d).bind DeclKind.receiverName? = some name → p.interner.lookup "self" = some name

variable {p p' : Program}

theorem NamesReceivers.push {kind : DeclKind} (h : p.NamesReceivers)
    (hkind : ∀ name, kind.receiverName? = some name → p.interner.lookup "self" = some name) :
    { p with arena := (p.arena.push kind).2 }.NamesReceivers := by
  intro d name hd
  rw [Arena.kind?_push] at hd
  split at hd
  · exact hkind name hd
  · exact h d name hd

theorem NamesReceivers.modify {d : DeclId} {f : Decl → Decl} (h : p.NamesReceivers)
    (hf : ∀ decl, (f decl).kind.receiverName? = decl.kind.receiverName?) :
    { p with arena := p.arena.modify d f }.NamesReceivers := by
  intro e name he
  apply h e name
  rw [← he]
  unfold Arena.kind?
  rw [Arena.decl?_modify]
  split
  · cases p.arena.decl? e with
    | none => rfl
    | some decl => exact (hf decl).symm
  · rfl

/-- Two programs that differ in notation at most. -/
structure Twin (ν : Spelling) (p p' : Program) : Prop where
  interner : p'.interner = p.interner
  arena : p'.arena.dotted ν = p.arena.dotted ν
  globals : p'.globals = p.globals
  identities : p'.identities = p.identities
  names : p.NamesReceivers
  names' : p'.NamesReceivers

/-- Twins look the same to whoever does not look at the notation. -/
theorem Twin.view (h : p.Twin ν p') {α : Type} (f : Arena → α) (hf : ∀ a : Arena, f (a.dotted ν) = f a) :
    f p'.arena = f p.arena := by
  rw [← hf, h.arena, hf]

/-- Makes a declaration in each of two twins, in either notation. A receiver must have its name. -/
theorem Twin.push {kind kind' : DeclKind} (h : p.Twin ν p') (hkind : kind'.dotted ν = kind.dotted ν)
    (hname : ∀ name, kind.receiverName? = some name → p.interner.lookup "self" = some name)
    (hname' : ∀ name, kind'.receiverName? = some name → p'.interner.lookup "self" = some name) :
    ((Build.push kind').run p').1 = ((Build.push kind).run p).1 ∧
      ((Build.push kind).run p).2.Twin ν ((Build.push kind').run p').2 := by
  constructor
  · exact congrArg DeclId.mk (h.view Arena.size Arena.size_dotted)
  · refine ⟨h.interner, ?_, h.globals, h.identities, h.names.push hname, h.names'.push hname'⟩
    change (p'.arena.push kind').2.dotted ν = (p.arena.push kind).2.dotted ν
    rw [Arena.push_dotted, Arena.push_dotted, h.arena, hkind]

/-- Changes a declaration in each of two twins, in a way that does not depend on the notation. -/
theorem Twin.modify {d : DeclId} {f : Decl → Decl} (h : p.Twin ν p')
    (hf : ∀ decl, f (decl.dotted ν) = (f decl).dotted ν)
    (hname : ∀ decl, (f decl).kind.receiverName? = decl.kind.receiverName?) :
    Twin ν { p with arena := p.arena.modify d f } { p' with arena := p'.arena.modify d f } := by
  refine { h with arena := ?_, names := h.names.modify hname, names' := h.names'.modify hname }
  change (p'.arena.modify d f).dotted ν = (p.arena.modify d f).dotted ν
  rw [Arena.modify_dotted hf, Arena.modify_dotted hf, h.arena]

theorem Twin.identify (h : p.Twin ν p') (access base : DeclId) (key : Atom) (assigns : Bool) :
    (p.identify access base key assigns).Twin ν (p'.identify access base key assigns) := by
  unfold Program.identify
  rw [h.view (·.owner? base) (·.owner?_dotted base), h.identities]
  cases p.arena.owner? base with
  | none => exact h
  | some owner => exact { h with identities := rfl }

theorem Twin.link (h : p.Twin ν p') (target : GlobalId × Registry) (d : DeclId) (assigns : Bool) :
    (p.link target d assigns).Twin ν (p'.link target d assigns) := by
  have hlinked : Twin ν { p with arena := p.arena.modify d fun decl => { decl with global := some target.1 } }
      { p' with arena := p'.arena.modify d fun decl => { decl with global := some target.1 } } :=
    h.modify (fun _ => rfl) fun _ => rfl
  exact { hlinked with globals := rfl }

/-- Binds an access in each of two twins. -/
theorem Twin.bindAccess (h : p.Twin ν p') (access base : DeclId) (key? : Option Atom) (assigns : Bool) :
    (p.bindAccess access base key? assigns).Twin ν (p'.bindAccess access base key? assigns) := by
  cases key? with
  | none => exact h
  | some key =>
    have hidentified := h.identify access base key assigns
    unfold Program.bindAccess
    dsimp only
    rw [h.view (·.globalOf? base) (·.globalOf?_dotted base), h.globals]
    cases p.arena.globalOf? base with
    | none => exact hidentified
    | some g => exact hidentified.link _ access assigns

end Program

/-! ## Construction steps -/

/-- Two steps that give the same answer for twins and take them to twins. -/
def Build.Mirrors {α : Type} (ν : Spelling) (m m' : Build α) : Prop :=
  ∀ p p' : Program, p.Twin ν p' → (m'.run p').1 = (m.run p).1 ∧ (m.run p).2.Twin ν (m'.run p').2

namespace Build

variable {α β : Type}

namespace Mirrors

theorem pure (a : α) : Mirrors ν (Pure.pure a : Build α) (Pure.pure a) := fun _ _ h => ⟨rfl, h⟩

theorem bind {m m' : Build α} {f f' : α → Build β} (h : Mirrors ν m m') (hf : ∀ a, Mirrors ν (f a) (f' a)) :
    Mirrors ν (m >>= f) (m' >>= f') := by
  intro p p' hp
  obtain ⟨hanswer, htwin⟩ := h p p' hp
  rw [StateT.run_bind, StateT.run_bind]
  change ((f' (m'.run p').1).run _).1 = _ ∧ Program.Twin ν _ ((f' (m'.run p').1).run _).2
  rw [hanswer]
  exact hf _ _ _ htwin

theorem map {g : α → β} {m m' : Build α} (h : Mirrors ν m m') : Mirrors ν (g <$> m) (g <$> m') :=
  h.bind fun a => .pure (g a)

/-- Two steps that start by looking at the program. -/
theorem get_bind {f f' : Program → Build α} (h : ∀ p p', p.Twin ν p' → Mirrors ν (f p) (f' p')) :
    Mirrors ν (get >>= f) (get >>= f') :=
  fun p p' hp => h p p' hp p p' hp

theorem forM {f : α → Build PUnit} (h : ∀ x, Mirrors ν (f x) (f x)) (xs : List α) : Mirrors ν (xs.forM f) (xs.forM f) := by
  induction xs with
  | nil => exact .pure _
  | cons x xs ih => exact (h x).bind fun _ => ih

theorem mapM {γ : Type} {R : α → γ → Prop} {f : α → Build β} {f' : γ → Build β} (h : ∀ x y, R x y → Mirrors ν (f x) (f' y))
    {xs : List α} {ys : List γ} (hxs : List.Forall₂ R xs ys) : Mirrors ν (xs.mapM f) (ys.mapM f') := by
  induction hxs with
  | nil => exact .pure _
  | cons hxy _ ih =>
    rw [List.mapM_cons, List.mapM_cons]
    exact (h _ _ hxy).bind fun _ => ih.bind fun _ => .pure _

theorem mapM_same {f : α → Build β} (h : ∀ x, Mirrors ν (f x) (f x)) (xs : List α) : Mirrors ν (xs.mapM f) (xs.mapM f) :=
  .mapM (R := Eq) (fun x _ hxy => hxy ▸ h x) (List.forall₂_refl xs)

theorem forIn {f : α → PUnit → Build (ForInStep PUnit)} (h : ∀ x, Mirrors ν (f x ⟨⟩) (f x ⟨⟩)) (xs : List α) :
    Mirrors ν (forIn xs ⟨⟩ f) (forIn xs ⟨⟩ f) := by
  induction xs with
  | nil => exact .pure _
  | cons x xs ih =>
    rw [List.forIn_cons]
    refine (h x).bind fun r => ?_
    cases r with
    | done u => exact .pure _
    | yield u => exact ih

end Mirrors

theorem intern_mirrors (text : String) : Mirrors ν (intern text) (intern text) := by
  rintro ⟨i, a, g, t⟩ ⟨_, a', _, _⟩ ⟨rfl, ha, rfl, rfl, hn, hn'⟩
  refine ⟨rfl, rfl, ha, rfl, rfl, fun d name hd => ?_, fun d name hd => ?_⟩
  · exact Interner.lookup_intern (hn d name hd) text
  · exact Interner.lookup_intern (hn' d name hd) text

theorem ensureGlobal_mirrors (category : Category) (name : Atom) :
    Mirrors ν (ensureGlobal category name) (ensureGlobal category name) := by
  rintro ⟨i, a, g, t⟩ ⟨_, a', _, _⟩ ⟨rfl, ha, rfl, rfl, hn, hn'⟩
  exact ⟨rfl, rfl, ha, rfl, rfl, hn, hn'⟩

theorem ensureField_mirrors (parent : GlobalId) (key : Atom) :
    Mirrors ν (ensureField parent key) (ensureField parent key) := by
  rintro ⟨i, a, g, t⟩ ⟨_, a', _, _⟩ ⟨rfl, ha, rfl, rfl, hn, hn'⟩
  exact ⟨rfl, rfl, ha, rfl, rfl, hn, hn'⟩

theorem addSite_mirrors (g : GlobalId) (site : DeclId) : Mirrors ν (addSite g site) (addSite g site) := by
  rintro ⟨i, a, g, t⟩ ⟨_, a', _, _⟩ ⟨rfl, ha, rfl, rfl, hn, hn'⟩
  exact ⟨rfl, rfl, ha, rfl, rfl, hn, hn'⟩

theorem record_mirrors (owner : DeclId) (key : Atom) (d : DeclId) (assigns : Bool) :
    Mirrors ν (record owner key d assigns) (record owner key d assigns) := by
  rintro ⟨i, a, g, t⟩ ⟨_, a', _, _⟩ ⟨rfl, ha, rfl, rfl, hn, hn'⟩
  exact ⟨rfl, rfl, ha, rfl, rfl, hn, hn'⟩

theorem push_mirrors {kind kind' : DeclKind} (h : kind'.dotted ν = kind.dotted ν) (hname : kind.receiverName? = none)
    (hname' : kind'.receiverName? = none) : Mirrors ν (push kind) (push kind') :=
  fun _ _ hp => hp.push h (by simp [hname]) (by simp [hname'])

/-- Makes the parameter `self`: as the receiver of a method, or in dot notation. -/
theorem addSelf_mirrors {role role' : Role}
    (h : ∀ name, (DeclKind.localVar name role' none []).dotted ν = (DeclKind.localVar name role none []).dotted ν) :
    Mirrors ν (addParam role "self") (addParam role' "self") := by
  -- whatever the role, the name is the one just stored
  have hname : ∀ (q : Program) (role : Role) name,
      (DeclKind.localVar (q.interner.intern "self").1 role none []).receiverName? = some name →
        ((intern "self").run q).2.interner.lookup "self" = some name := by
    intro q role name hname
    cases role <;> cases hname
    exact Interner.lookup_intern_self q.interner "self"
  intro p p' hp
  obtain ⟨hatom, htwin⟩ := intern_mirrors "self" p p' hp
  refine htwin.push ?_ (hname p role) (hname p' role')
  change (DeclKind.localVar ((intern "self").run p').1 role' none []).dotted ν = _
  rw [hatom]
  exact h _

theorem modify_mirrors {d : DeclId} {f : Decl → Decl} (hf : ∀ decl, f (decl.dotted ν) = (f decl).dotted ν)
    (hname : ∀ decl, (f decl).kind.receiverName? = decl.kind.receiverName?) :
    Mirrors ν (modifyArena (·.modify d f)) (modifyArena (·.modify d f)) :=
  fun _ _ hp => ⟨rfl, hp.modify hf hname⟩

theorem setParent_mirrors (child parent : DeclId) : Mirrors ν (setParent child parent) (setParent child parent) :=
  modify_mirrors (fun _ => rfl) fun _ => rfl

theorem linkGlobal_mirrors (d : DeclId) (g : GlobalId) : Mirrors ν (linkGlobal d g) (linkGlobal d g) :=
  modify_mirrors (fun _ => rfl) fun _ => rfl

theorem modifyKind_mirrors (d : DeclId) {f : DeclKind → DeclKind} (hf : ∀ kind, f (kind.dotted ν) = (f kind).dotted ν)
    (hname : ∀ kind, (f kind).receiverName? = kind.receiverName?) :
    Mirrors ν (modifyArena (·.modifyKind d f)) (modifyArena (·.modifyKind d f)) := by
  refine modify_mirrors (fun decl => ?_) fun decl => hname decl.kind
  exact congrArg (fun kind => { decl with kind }) (hf decl.kind)

theorem addRef_mirrors (target use : DeclId) : Mirrors ν (addRef target use) (addRef target use) := by
  refine modifyKind_mirrors target (fun kind => ?_) fun kind => ?_
  · cases ν <;> cases kind <;> rfl
  · cases kind with
    | localVar name role value refs => cases role <;> rfl
    | _ => rfl

theorem bindDoc_mirrors (doc target : DeclId) : Mirrors ν (bindDoc doc target) (bindDoc doc target) := by
  refine .bind (modify_mirrors (fun _ => rfl) fun _ => rfl) fun _ => modifyKind_mirrors doc (fun kind => ?_) fun kind => ?_
  · cases ν <;> cases kind <;> rfl
  · cases kind <;> rfl

theorem add_mirrors {kind kind' : DeclKind} (h : kind'.dotted ν = kind.dotted ν) (hname : kind.receiverName? = none)
    (hname' : kind'.receiverName? = none) : Mirrors ν (add kind) (add kind') := by
  have hchildren : kind'.children = kind.children := by
    rw [← kind'.children_dotted (ν := ν), h, kind.children_dotted]
  refine .bind (push_mirrors h hname hname') fun d => ?_
  rw [hchildren]
  exact .bind (.forM (fun child => setParent_mirrors child d) _) fun _ => .pure d

/-- Makes a declaration that is no receiver. -/
theorem add_same {kind : DeclKind} (h : kind.receiverName? = none) : Mirrors ν (add kind) (add kind) := add_mirrors rfl h h

theorem recordTableFields_mirrors (owner value : DeclId) :
    Mirrors ν (recordTableFields owner value) (recordTableFields owner value) := by
  refine .get_bind fun p p' hp => ?_
  rw [hp.view (·.keyedFields value) (·.keyedFields_dotted value)]
  exact .forIn (fun field => .bind (record_mirrors _ _ _ _) fun _ => .pure _) _

theorem registerTableFields_mirrors (g : GlobalId) (value : DeclId) :
    Mirrors ν (registerTableFields g value) (registerTableFields g value) := by
  refine .get_bind fun p p' hp => ?_
  rw [hp.view (·.keyedFields value) (·.keyedFields_dotted value)]
  refine .forIn (fun field => .bind (ensureField_mirrors g field.1) fun sub => ?_) _
  exact .bind (addSite_mirrors _ _) fun _ => .bind (linkGlobal_mirrors _ _) fun _ => .pure _

theorem linkMember_mirrors (access base : DeclId) (key? : Option Atom) (assigns : Bool) :
    Mirrors ν (linkMember access base key? assigns) (linkMember access base key? assigns) := by
  intro p p' hp
  refine ⟨rfl, ?_⟩
  rw [linkMember_run, linkMember_run]
  exact hp.bindAccess access base key? assigns

/-! ## Constructs -/

theorem addFields_mirrors {make : Atom → DeclId → DeclKind} (h : ∀ key content, (make key content).receiverName? = none)
    (fields : List (String × DeclId)) : Mirrors ν (addFields make fields) (addFields make fields) :=
  .mapM_same (fun _ => .bind (intern_mirrors _) fun _ => add_same (h _ _)) fields

theorem addParams_mirrors (names : List String) : Mirrors ν (names.mapM (addParam .param)) (names.mapM (addParam .param)) :=
  .mapM_same (fun _ => .bind (intern_mirrors _) fun _ => push_mirrors rfl rfl rfl) names

/-- Makes an access. An assignment to `t:k` is one to `t.k`. -/
theorem addMember_mirrors (base : DeclId) {member member' : Member} {value? : Option DeclId}
    (h : (DeclKind.access base member' value?).dotted ν = (DeclKind.access base member value?).dotted ν)
    (hkey : member'.key? = member.key?) : Mirrors ν (addMember base member value?) (addMember base member' value?) := by
  have hadd : Mirrors ν (add (.access base member value?)) (add (.access base member' value?)) := by
    apply add_mirrors h <;> cases value? <;> rfl
  unfold addMember
  rw [hkey]
  exact .bind hadd fun d => .bind (linkMember_mirrors _ _ _ _) fun _ => .pure d

theorem addNameToken_mirrors (access : DeclId) : Mirrors ν (addNameToken access) (addNameToken access) := by
  refine .get_bind fun p p' hp => ?_
  have hkind : (p'.arena.kind? access).map (DeclKind.dotted ν) = (p.arena.kind? access).map (DeclKind.dotted ν) := by
    rw [← Arena.kind?_dotted, hp.arena, Arena.kind?_dotted]
  cases hk : p.arena.kind? access with
  | none =>
    rw [hk, Option.map_none, Option.map_eq_none_iff] at hkind
    rw [hkind]
    exact .pure _
  | some kind =>
    rw [hk] at hkind
    obtain ⟨kind', hk', hdotted⟩ := Option.map_eq_some_iff.1 hkind
    have hkey : kind'.key? = kind.key? := by rw [← kind'.key?_dotted (ν := ν), hdotted, kind.key?_dotted]
    rw [hk']
    simp only [hkey]
    cases kind.key? with
    | none => exact .pure _
    | some key =>
      refine .bind (push_mirrors ?_ ?_ ?_) fun d => .bind (setParent_mirrors d access) fun _ => .pure _
      · change (kind'.nameToken key).dotted ν = (kind.nameToken key).dotted ν
        rw [← kind'.nameToken_dotted, hdotted, kind.nameToken_dotted]
      · split <;> rfl
      · split <;> rfl

theorem addDoc_mirrors (target : DeclId) {kind : DeclKind} (h : kind.receiverName? = none) :
    Mirrors ν (addDoc target kind) (addDoc target kind) :=
  .bind (add_same h) fun doc => .bind (bindDoc_mirrors doc target) fun _ => .pure doc

theorem addTypeName_mirrors (name : String) : Mirrors ν (addTypeName name) (addTypeName name) :=
  .bind (intern_mirrors _) fun _ => add_same rfl

theorem addClass_mirrors (name : String) (supers : List String) : Mirrors ν (addClass name supers) (addClass name supers) := by
  refine .bind (intern_mirrors _) fun name => .bind (.mapM_same addTypeName_mirrors supers) fun supers => ?_
  refine .bind (add_same rfl) fun doc => .bind (ensureGlobal_mirrors _ _) fun g => ?_
  exact .bind (addSite_mirrors _ _) fun _ => .bind (linkGlobal_mirrors _ _) fun _ => .pure doc

end Build

namespace Command

open Build

/-- A command and itself, or the same construct in dot notation: a method is a function with the parameter `self`, and
is assigned to a field. -/
inductive Respelled : Command → Command → Prop
  | same (c : Command) : Respelled c c
  | method (params : List String) : Respelled (.method params) (.function ("self" :: params))
  | setMethod (base : DeclId) (key : String) (func : DeclId) :
      Respelled (.setMethod base key func) (.setField base key func)

theorem run_mirrors (c : Command) : Mirrors ν c.run c.run := by
  cases c with
  | nil | boolean _ | integer _ | number _ | call _ _ | varargs | paren _ | tyUnion _ | tyInteger _ | tyBoolean _
  | tyFunction _ _ | tyArray _ => exact (add_same rfl).map
  | string s | tyGeneric s | tyString s => exact .map (.bind (intern_mirrors _) fun _ => add_same rfl)
  | table fields | tyTable fields =>
    exact .map (.bind (addFields_mirrors (fun _ _ => rfl) fields) fun _ => add_same rfl)
  | function params => exact .map (.bind (addParams_mirrors params) fun _ => add_same rfl)
  | method params =>
    exact .map (.bind (addSelf_mirrors fun _ => rfl) fun _ => .bind (addParams_mirrors params) fun _ => add_same rfl)
  | ret func exprs =>
    refine .map (.bind (add_same rfl) fun d => .bind (setParent_mirrors _ _) fun _ =>
      .bind (modifyKind_mirrors func (fun kind => ?_) fun kind => ?_) fun _ => .pure d)
    · cases ν <;> cases kind <;> rfl
    · cases kind <;> rfl
  | localVar name value =>
    refine .map (.bind (intern_mirrors _) fun _ => .bind (add_same rfl) fun d => .bind ?_ fun _ => .pure d)
    cases value with
    | none => exact .pure _
    | some v => exact recordTableFields_mirrors d v
  | getLocal target =>
    exact .map (.bind (push_mirrors rfl rfl rfl) fun d => .bind (addRef_mirrors _ _) fun _ => .pure d)
  | setLocal target value =>
    exact .map (.bind (push_mirrors rfl rfl rfl) fun d => .bind (setParent_mirrors _ _) fun _ =>
      .bind (addRef_mirrors _ _) fun _ => .bind (recordTableFields_mirrors _ _) fun _ => .pure d)
  | getGlobal name =>
    exact .map (.bind (intern_mirrors _) fun _ => .bind (add_same rfl) fun d =>
      .bind (ensureGlobal_mirrors _ _) fun _ => .bind (linkGlobal_mirrors _ _) fun _ => .pure d)
  | setGlobal name value =>
    exact .map (.bind (intern_mirrors _) fun _ => .bind (add_same rfl) fun d =>
      .bind (ensureGlobal_mirrors _ _) fun _ => .bind (addSite_mirrors _ _) fun _ =>
        .bind (linkGlobal_mirrors _ _) fun _ => .bind (registerTableFields_mirrors _ _) fun _ => .pure d)
  | getField base key | setField base key _ | getMethod base key | setMethod base key _ =>
    exact .map (.bind (intern_mirrors _) fun _ => addMember_mirrors base rfl rfl)
  | getIndex base key | setIndex base key _ =>
    refine .map (.bind ?_ fun _ => addMember_mirrors base rfl rfl)
    cases key with
    | none => exact .pure _
    | some k => exact .map (intern_mirrors k)
  | select source index =>
    refine .map (.bind (push_mirrors rfl rfl rfl) fun d => .get_bind fun p p' hp => ?_)
    rw [hp.view (·.parent? source) (·.parent?_dotted source)]
    split
    · exact .bind (setParent_mirrors _ _) fun _ => .pure d
    · exact .pure d
  | docType | docReturn | docVararg | docOverload => exact .map (addDoc_mirrors _ rfl)
  | docClass name supers => exact .map (addClass_mirrors name supers)
  | docField cls name ty =>
    refine .map (.bind (intern_mirrors _) fun _ => .bind (add_same rfl) fun d => .bind (setParent_mirrors _ _) fun _ =>
      .bind (modifyKind_mirrors cls (fun kind => ?_) fun kind => ?_) fun _ => .pure d)
    · cases ν <;> cases kind <;> rfl
    · cases kind <;> rfl
  | docParam func name ty =>
    refine .map (.bind (intern_mirrors _) fun _ => .bind (addDoc_mirrors _ rfl) fun doc => .get_bind fun p p' hp => ?_)
    rw [hp.view (·.params func) (·.params_dotted func)]
    exact .bind (.forM (bindDoc_mirrors doc) _) fun _ => .pure doc
  | docGeneric func params =>
    exact .map (.bind (.mapM_same intern_mirrors params) fun _ => addDoc_mirrors func rfl)
  | tyName name => exact .map (addTypeName_mirrors name)
  | nameToken access => exact .map (addNameToken_mirrors access)
  | attach child parent => exact .bind (setParent_mirrors _ _) fun _ => .pure _
  | bind doc target => exact .bind (bindDoc_mirrors _ _) fun _ => .pure _
  | atom text => exact .map (intern_mirrors text)
  | askParams func =>
    refine .get_bind fun p p' hp => ?_
    rw [hp.view (·.params func) (·.params_dotted func)]
    exact .pure _
  | askParam func name =>
    refine .bind (intern_mirrors _) fun name => .get_bind fun p p' hp => ?_
    dsimp only
    rw [hp.view (fun a => (a.params func).find? fun d => a.localName? d == some name) (by simp)]
    exact .pure _
  | askSize =>
    refine .get_bind fun p p' hp => ?_
    rw [hp.view Arena.size Arena.size_dotted]
    exact .pure _

/-- A command and the same construct in dot notation do the same. -/
theorem Respelled.mirrors {c c' : Command} (h : Respelled c c') : Mirrors .colon c.run c'.run := by
  cases h with
  | same => exact c.run_mirrors
  | method params =>
    refine .map ?_
    rw [List.mapM_cons]
    simp only [bind_assoc, pure_bind]
    exact .bind (addSelf_mirrors fun _ => rfl) fun _ => .bind (addParams_mirrors params) fun _ => add_mirrors rfl rfl rfl
  | setMethod base key func => exact .map (.bind (intern_mirrors key) fun _ => addMember_mirrors base rfl rfl)

end Command

namespace Program

theorem twin_empty : empty.Twin ν empty := by
  have hnames : empty.NamesReceivers := by
    intro d name hd
    simp [empty, Arena.empty, Arena.kind?, Arena.decl?] at hd
  exact ⟨rfl, rfl, rfl, rfl, hnames, hnames⟩

theorem twin_withBuiltins : withBuiltins.Twin ν withBuiltins := by
  have h : Build.Mirrors ν (builtinTypes.forM fun name => discard (Build.addClass name []))
      (builtinTypes.forM fun name => discard (Build.addClass name [])) :=
    .forM (fun name => .map (Build.addClass_mirrors name [])) _
  exact (h empty empty twin_empty).2

/-- A script, and the same script with some commands in dot notation, build twins and give the same replies. -/
theorem Twin.build {p p' : Program} (h : p.Twin ν p') {R : Command → Command → Prop}
    (hR : ∀ c c', R c c' → Build.Mirrors ν c.run c'.run) {script script' : List Command}
    (hs : List.Forall₂ R script script') :
    (p'.build script').1 = (p.build script).1 ∧ (p.build script).2.Twin ν (p'.build script').2 :=
  Build.Mirrors.mapM hR hs p p' h

end Program

end LuaInfer
