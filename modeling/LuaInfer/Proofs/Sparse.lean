import LuaInfer.Proofs.Built
import LuaInfer.Proofs.Draft
/-!
# How much is noted at a declaration

A script notes each annotation at a declaration once, and each `return` at one function. So in a program that a script builds,
no declaration has more annotations or more returns than there are declarations (`Program.Built.sparse`). `Build.Sparing` is
what each construction step does for this, and `Command.run_sparse` says it of every command.
-/

namespace LuaInfer

/-- The `return` statements of a function. -/
def DeclKind.returned : DeclKind → List DeclId
  | function _ returns _ => returns
  | _ => []

/-- No declaration has an annotation twice, and none has more than `n` returns. -/
def Arena.Sparse (a : Arena) (n : Nat) : Prop :=
  ∀ d decl, a.decl? d = some decl → decl.docs.Nodup ∧ decl.kind.returned.length ≤ n

/-- A step that notes no `return`. -/
structure Build.Sparing {α : Type} (m : Build α) : Prop where
  sparse : ∀ n p, p.arena.Sparse n → (m.run p).2.arena.Sparse n
  size : ∀ p, p.arena.size ≤ (m.run p).2.arena.size

namespace Arena

variable {a : Arena} {d : DeclId} {kind : DeclKind} {f : Decl → Decl} {m n : Nat}

theorem Sparse.mono (h : a.Sparse m) (hmn : m ≤ n) : a.Sparse n :=
  fun d decl hd => ⟨(h d decl hd).1, Nat.le_trans (h d decl hd).2 hmn⟩

theorem Sparse.push (h : a.Sparse n) (hkind : kind.returned = []) : (a.push kind).2.Sparse n := by
  intro e decl he
  rw [decl?_push] at he
  split at he
  · cases he
    exact ⟨List.nodup_nil, by simp [hkind]⟩
  · exact h e decl he

theorem Sparse.modify (h : a.Sparse m) (hmn : m ≤ n)
    (hf : ∀ decl, (decl.docs.Nodup → (f decl).docs.Nodup) ∧ (decl.kind.returned.length ≤ m → (f decl).kind.returned.length ≤ n)) :
    (a.modify d f).Sparse n := by
  intro e decl he
  rw [decl?_modify] at he
  split at he
  · obtain ⟨old, ho, rfl⟩ := Option.map_eq_some_iff.1 he
    exact ⟨(hf old).1 (h e old ho).1, (hf old).2 (h e old ho).2⟩
  · exact h.mono hmn e decl he

end Arena

namespace Build

variable {α β : Type} {m : Build α}

namespace Sparing

theorem bind {f : α → Build β} (h : Sparing m) (hf : ∀ a, Sparing (f a)) : Sparing (m >>= f) :=
  ⟨fun n p hp => (hf (m.run p).1).sparse n _ (h.sparse n p hp), fun p => Nat.le_trans (h.size p) ((hf (m.run p).1).size _)⟩

/-- Steps that leave the declarations as they are. -/
theorem of_arena (h : ∀ p, (m.run p).2.arena = p.arena) : Sparing m :=
  ⟨fun n p hp => by rwa [h p], fun p => Nat.le_of_eq (by rw [h p])⟩

theorem pure {a : α} : Sparing (Pure.pure a : Build α) := .of_arena fun _ => rfl

theorem get : Sparing (get : Build Program) := .of_arena fun _ => rfl

theorem map {g : α → β} (h : Sparing m) : Sparing (g <$> m) := ⟨h.sparse, h.size⟩

theorem forM {f : α → Build PUnit} {xs : List α} (h : ∀ x, Sparing (f x)) : Sparing (xs.forM f) := by
  induction xs with
  | nil => exact .pure
  | cons x xs ih => exact .bind (h x) fun _ => ih

theorem mapM {f : α → Build β} {xs : List α} (h : ∀ x, Sparing (f x)) : Sparing (xs.mapM f) := by
  induction xs with
  | nil => exact .pure
  | cons x xs ih =>
    rw [List.mapM_cons]
    exact .bind (h x) fun _ => .bind ih fun _ => .pure

theorem forIn {f : α → PUnit → Build (ForInStep PUnit)} {xs : List α} (h : ∀ x, Sparing (f x ⟨⟩)) :
    Sparing (forIn xs ⟨⟩ f) := by
  induction xs with
  | nil => exact .pure
  | cons x xs ih =>
    rw [List.forIn_cons]
    refine .bind (h x) fun r => ?_
    cases r with
    | done u => exact .pure
    | yield u => exact ih

end Sparing

theorem intern_sparing (text : String) : Sparing (intern text) := .of_arena fun _ => rfl

theorem ensureGlobal_sparing (category : Category) (name : Atom) : Sparing (ensureGlobal category name) :=
  .of_arena fun _ => rfl

theorem ensureField_sparing (g : GlobalId) (key : Atom) : Sparing (ensureField g key) := .of_arena fun _ => rfl

theorem addSite_sparing (g : GlobalId) (site : DeclId) : Sparing (addSite g site) := .of_arena fun _ => rfl

theorem record_sparing (owner : DeclId) (key : Atom) (d : DeclId) (assigns : Bool) : Sparing (record owner key d assigns) :=
  .of_arena fun _ => rfl

theorem push_sparing {kind : DeclKind} (h : kind.returned = []) : Sparing (push kind) :=
  ⟨fun _ _ hp => hp.push h, fun _ => Nat.le_of_lt (Nat.lt_of_succ_le (Nat.le_of_eq Arena.size_push.symm))⟩

theorem modify_sparing {d : DeclId} {f : Decl → Decl}
    (hf : ∀ decl, (decl.docs.Nodup → (f decl).docs.Nodup) ∧ (f decl).kind.returned = decl.kind.returned) :
    Sparing (modifyArena (·.modify d f)) :=
  ⟨fun _ _ hp => hp.modify (Nat.le_refl _) fun decl => ⟨(hf decl).1, fun h => by rwa [(hf decl).2]⟩,
    fun _ => Nat.le_of_eq Arena.size_modify.symm⟩

theorem setParent_sparing (child parent : DeclId) : Sparing (setParent child parent) := modify_sparing fun _ => ⟨id, rfl⟩

theorem linkGlobal_sparing (d : DeclId) (g : GlobalId) : Sparing (linkGlobal d g) := modify_sparing fun _ => ⟨id, rfl⟩

theorem modifyKind_sparing (d : DeclId) {f : DeclKind → DeclKind} (h : ∀ kind, (f kind).returned = kind.returned) :
    Sparing (modifyArena (·.modifyKind d f)) :=
  modify_sparing fun decl => ⟨id, h decl.kind⟩

theorem addRef_sparing (target use : DeclId) : Sparing (addRef target use) :=
  modifyKind_sparing target fun kind => by cases kind <;> rfl

theorem bindDoc_sparing (doc target : DeclId) : Sparing (bindDoc doc target) :=
  .bind (modify_sparing fun _ => ⟨fun h => Distinct.nodup_add h doc, rfl⟩) fun _ =>
    modifyKind_sparing doc fun kind => by cases kind <;> rfl

theorem add_sparing {kind : DeclKind} (h : kind.returned = []) : Sparing (add kind) :=
  .bind (push_sparing h) fun _ => .bind (.forM fun _ => setParent_sparing _ _) fun _ => .pure

theorem recordTableFields_sparing (owner value : DeclId) : Sparing (recordTableFields owner value) :=
  .bind .get fun _ => .bind (.forIn fun _ => .bind (record_sparing ..) fun _ => .pure) fun _ => .pure

theorem registerTableFields_sparing (g : GlobalId) (value : DeclId) : Sparing (registerTableFields g value) :=
  .bind .get fun _ => .bind (.forIn fun _ => .bind (ensureField_sparing ..) fun _ => .bind (addSite_sparing ..) fun _ =>
    .bind (linkGlobal_sparing ..) fun _ => .pure) fun _ => .pure

/-- The global of an access on a global. -/
theorem linkField_sparing (access : DeclId) (parent : GlobalId) (key : Atom) (assigns : Bool) : Sparing (do
    let g ← ensureField parent key
    linkGlobal access g
    if assigns then
      addSite g access : Build Unit) := by
  refine .bind (ensureField_sparing ..) fun g => .bind (linkGlobal_sparing ..) fun _ => ?_
  split
  · exact addSite_sparing ..
  · exact .pure

theorem linkMember_sparing (access base : DeclId) (key? : Option Atom) (assigns : Bool) :
    Sparing (linkMember access base key? assigns) := by
  unfold linkMember
  cases key? with
  | none => exact .pure
  | some key =>
    refine .bind .get fun p => ?_
    dsimp only
    split
    · refine .bind (record_sparing ..) fun _ => .bind .get fun p => ?_
      split
      · exact linkField_sparing ..
      · exact .pure
    · refine .bind .get fun p => ?_
      split
      · exact linkField_sparing ..
      · exact .pure

theorem addFields_sparing {make : Atom → DeclId → DeclKind} (h : ∀ key content, (make key content).returned = [])
    (fields : List (String × DeclId)) : Sparing (addFields make fields) :=
  .mapM fun _ => .bind (intern_sparing _) fun _ => add_sparing (h _ _)

theorem addParam_sparing (role : Role) (name : String) : Sparing (addParam role name) :=
  .bind (intern_sparing _) fun _ => push_sparing rfl

theorem addMember_sparing (base : DeclId) (member : Member) (value? : Option DeclId) :
    Sparing (addMember base member value?) := by
  cases value? <;> exact .bind (add_sparing rfl) fun d => .bind (linkMember_sparing ..) fun _ => .pure

theorem addNameToken_sparing (access : DeclId) : Sparing (addNameToken access) := by
  refine .bind .get fun p => ?_
  split
  · exact .pure
  · split
    · refine .bind (push_sparing ?_) fun d => .bind (setParent_sparing _ _) fun _ => .pure
      split <;> rfl
    · exact .pure

theorem addDoc_sparing (target : DeclId) {kind : DeclKind} (h : kind.returned = []) : Sparing (addDoc target kind) :=
  .bind (add_sparing h) fun _ => .bind (bindDoc_sparing _ _) fun _ => .pure

theorem addTypeName_sparing (name : String) : Sparing (addTypeName name) :=
  .bind (intern_sparing _) fun _ => add_sparing rfl

theorem addClass_sparing (name : String) (supers : List String) : Sparing (addClass name supers) :=
  .bind (intern_sparing _) fun _ => .bind (.mapM fun _ => addTypeName_sparing _) fun _ => .bind (add_sparing rfl) fun _ =>
    .bind (ensureGlobal_sparing ..) fun _ => .bind (addSite_sparing ..) fun _ => .bind (linkGlobal_sparing ..) fun _ => .pure

end Build

open Build in
/-- Every command but `return` notes no `return`. -/
theorem Command.run_sparing (c : Command) (h : ∀ func exprs, c ≠ .ret func exprs) : Sparing c.run := by
  cases c with
  | nil | boolean _ | integer _ | number _ | call _ _ | varargs | paren _ | tyUnion _ | tyInteger _ | tyBoolean _
  | tyFunction _ _ | tyArray _ => exact .map (add_sparing rfl)
  | string s | tyGeneric s | tyString s => exact .map (.bind (intern_sparing _) fun _ => add_sparing rfl)
  | table fields | tyTable fields =>
    exact .map (.bind (addFields_sparing (fun _ _ => rfl) fields) fun _ => add_sparing rfl)
  | function params => exact .map (.bind (.mapM fun _ => addParam_sparing ..) fun _ => add_sparing rfl)
  | method params =>
    exact .map (.bind (addParam_sparing ..) fun _ => .bind (.mapM fun _ => addParam_sparing ..) fun _ => add_sparing rfl)
  | ret func exprs => exact absurd rfl (h func exprs)
  | localVar name value =>
    refine .map (.bind (intern_sparing _) fun _ => .bind (add_sparing rfl) fun d => .bind ?_ fun _ => .pure)
    cases value with
    | none => exact .pure
    | some v => exact recordTableFields_sparing d v
  | getLocal target =>
    exact .map (.bind (push_sparing rfl) fun _ => .bind (addRef_sparing ..) fun _ => .pure)
  | setLocal target value =>
    exact .map (.bind (push_sparing rfl) fun _ => .bind (setParent_sparing ..) fun _ => .bind (addRef_sparing ..) fun _ =>
      .bind (recordTableFields_sparing ..) fun _ => .pure)
  | getGlobal name =>
    exact .map (.bind (intern_sparing _) fun _ => .bind (add_sparing rfl) fun _ => .bind (ensureGlobal_sparing ..) fun _ =>
      .bind (linkGlobal_sparing ..) fun _ => .pure)
  | setGlobal name value =>
    exact .map (.bind (intern_sparing _) fun _ => .bind (add_sparing rfl) fun _ => .bind (ensureGlobal_sparing ..) fun _ =>
      .bind (addSite_sparing ..) fun _ => .bind (linkGlobal_sparing ..) fun _ =>
        .bind (registerTableFields_sparing ..) fun _ => .pure)
  | getField base key | setField base key _ | getMethod base key | setMethod base key _ =>
    exact .map (.bind (intern_sparing _) fun _ => addMember_sparing ..)
  | getIndex base key | setIndex base key _ =>
    refine .map (.bind ?_ fun _ => addMember_sparing ..)
    cases key with
    | none => exact .pure
    | some k => exact .map (intern_sparing k)
  | select source index =>
    refine .map (.bind (push_sparing rfl) fun d => .bind .get fun p => ?_)
    dsimp only
    split
    · exact .bind (setParent_sparing ..) fun _ => .pure
    · exact .pure
  | docType | docReturn | docVararg | docOverload => exact .map (addDoc_sparing _ rfl)
  | docClass name supers => exact .map (addClass_sparing ..)
  | docField cls name ty =>
    exact .map (.bind (intern_sparing _) fun _ => .bind (add_sparing rfl) fun d => .bind (setParent_sparing ..) fun _ =>
      .bind (modifyKind_sparing cls fun kind => by cases kind <;> rfl) fun _ => .pure)
  | docParam func name ty =>
    exact .map (.bind (intern_sparing _) fun _ => .bind (addDoc_sparing _ rfl) fun doc => .bind .get fun _ =>
      .bind (.forM fun _ => bindDoc_sparing ..) fun _ => .pure)
  | docGeneric func params => exact .map (.bind (.mapM fun _ => intern_sparing _) fun _ => addDoc_sparing _ rfl)
  | tyName name => exact .map (addTypeName_sparing _)
  | nameToken access => exact .map (addNameToken_sparing _)
  | attach child parent => exact .bind (setParent_sparing ..) fun _ => .pure
  | bind doc target => exact .bind (bindDoc_sparing ..) fun _ => .pure
  | atom text => exact .map (intern_sparing _)
  | askParams func => exact .bind .get fun _ => .pure
  | askParam func name => exact .bind (intern_sparing _) fun _ => .bind .get fun _ => .pure
  | askSize => exact .bind .get fun _ => .pure

namespace Program

variable {p : Program}

/-- A `return` is noted at one function, and it is a declaration itself. -/
theorem sparse_ret (h : p.arena.Sparse p.arena.size) (func : DeclId) (exprs : List DeclId) :
    ((Command.ret func exprs).run.run p).2.arena.Sparse ((Command.ret func exprs).run.run p).2.arena.size := by
  let d : DeclId := (p.arena.push (.ret exprs)).1
  let link : Build Unit := do
    exprs.forM (Build.setParent · d)
    Build.setParent d func
  let pushed : Program := { p with arena := (p.arena.push (.ret exprs)).2 }
  let made := link.run pushed
  have hlink : link.Sparing := .bind (.forM fun _ => Build.setParent_sparing ..) fun _ => Build.setParent_sparing ..
  have hmade : made.2.arena.Sparse p.arena.size := hlink.sparse _ _ (h.push rfl)
  have hsize : p.arena.size + 1 ≤ made.2.arena.size := Nat.le_trans (Nat.le_of_eq Arena.size_push.symm) (hlink.size pushed)
  have hnoted : (made.2.arena.modifyKind func fun
      | .function params returns isMethod => .function params (returns ++ [d]) isMethod
      | kind => kind).Sparse made.2.arena.size := by
    refine hmade.modify (Nat.le_of_succ_le hsize) fun decl => ⟨id, fun hlen => ?_⟩
    dsimp only
    split
    · next hk =>
      rw [hk] at hlen
      exact Nat.le_trans (by simpa [DeclKind.returned] using hlen) hsize
    · exact Nat.le_trans hlen (Nat.le_of_succ_le hsize)
  rwa [← Arena.size_modify (d := func)] at hnoted

theorem sparse_run (c : Command) (h : p.arena.Sparse p.arena.size) :
    (c.run.run p).2.arena.Sparse (c.run.run p).2.arena.size := by
  by_cases hret : ∃ func exprs, c = .ret func exprs
  · obtain ⟨func, exprs, rfl⟩ := hret
    exact sparse_ret h func exprs
  · have hc := c.run_sparing fun func exprs heq => hret ⟨func, exprs, heq⟩
    exact (hc.sparse _ p h).mono (hc.size p)

theorem sparse_build (script : List Command) (h : p.arena.Sparse p.arena.size) :
    (p.build script).2.arena.Sparse (p.build script).2.arena.size := by
  induction script generalizing p with
  | nil => exact h
  | cons c script ih =>
    have hrest := ih (sparse_run c h)
    rw [build, List.mapM_cons]
    exact hrest

theorem sparse_empty : empty.arena.Sparse empty.arena.size :=
  fun d decl hd => by simp [empty, Arena.decl?, Arena.empty] at hd

theorem sparse_withBuiltins : withBuiltins.arena.Sparse withBuiltins.arena.size := by
  have h : Build.Sparing (builtinTypes.forM fun name => discard (Build.addClass name [])) :=
    .forM fun _ => .map (Build.addClass_sparing ..)
  unfold withBuiltins
  exact (h.sparse _ _ sparse_empty).mono (h.size _)

/-- In a program that a script builds, no declaration has an annotation twice, or more returns than there are declarations. -/
theorem Built.sparse (h : p.Built) : p.arena.Sparse p.arena.size := by
  obtain ⟨script, rfl | rfl⟩ := h
  · exact sparse_build script sparse_empty
  · exact sparse_build script sparse_withBuiltins

end Program

end LuaInfer
