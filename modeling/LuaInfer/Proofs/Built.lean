import LuaInfer.Program.Command
/-!
# What building a program ensures

Commands may name declarations that do not exist, so little is true of every program that a script builds:
only accesses, assignments, fields and classes stand for a global, and each identity that is recorded has
its group. `Build.Keeps` is what each construction step does for this, and `Command.run_keeps` says it of
every command. `Program.Built.formed` is the result for whole scripts.
-/

namespace LuaInfer

/-- Declarations that may stand for a global. -/
def DeclKind.isLinkable : DeclKind → Bool
  | getGlobal .. | setGlobal .. | getMember .. | setMember .. | tableField .. | docClass .. => true
  | _ => false

/-- The fields of a table constructor. -/
def DeclKind.tableFields : DeclKind → List DeclId
  | table fields => fields
  | _ => []

namespace Arena

variable {a : Arena} {d e : DeclId} {kind : DeclKind} {f : Decl → Decl}

/-- The declaration exists, and it may stand for a global. -/
def Linkable (a : Arena) (d : DeclId) : Prop := ∃ decl, a.decl? d = some decl ∧ decl.kind.isLinkable = true

theorem decl?_push : (a.push kind).2.decl? e = if e = (a.push kind).1 then some { kind } else a.decl? e := by
  cases e
  simp [decl?, push, Array.getElem?_push]

theorem decl?_modify : (a.modify d f).decl? e = if e = d then (a.decl? e).map f else a.decl? e := by
  cases d
  cases e
  simp [decl?, modify, Array.getElem?_modify, eq_comm]

end Arena

namespace Program

/-- What holds of every program that is built. -/
structure Formed (p : Program) : Prop where
  /-- What stands for a global is something that may. -/
  link : ∀ d decl, p.arena.decl? d = some decl → decl.global ≠ none → decl.kind.isLinkable = true
  /-- So are the fields of a table constructor. -/
  field : ∀ d decl, p.arena.decl? d = some decl → ∀ f ∈ decl.kind.tableFields, p.arena.Linkable f
  /-- A recorded identity has its group. -/
  home : ∀ (d : DeclId) (i : Nat), p.identities.home[d]? = some i → i < p.identities.groups.size

/-- From `p` to `p'`, the program stays formed, and what may stand for a global still may. -/
structure Keeps (p p' : Program) : Prop where
  formed : p'.Formed
  linkable : ∀ d, p.arena.Linkable d → p'.arena.Linkable d

variable {p p' p'' : Program} {d : DeclId}

theorem Keeps.refl (h : p.Formed) : p.Keeps p := ⟨h, fun _ hd => hd⟩

theorem Keeps.trans (h : p.Keeps p') (h' : p'.Keeps p'') : p.Keeps p'' :=
  ⟨h'.formed, fun d hd => h'.linkable d (h.linkable d hd)⟩

theorem keeps_push {kind : DeclKind} (h : p.Formed) (hfields : ∀ f ∈ kind.tableFields, p.arena.Linkable f) :
    p.Keeps { p with arena := (p.arena.push kind).2 } := by
  have hold : ∀ e, p.arena.Linkable e → (p.arena.push kind).2.Linkable e := by
    rintro e ⟨decl, he, hl⟩
    refine ⟨decl, ?_, hl⟩
    have hne : e ≠ (p.arena.push kind).1 := by
      rintro rfl
      simp [Arena.decl?, Arena.push] at he
    rw [Arena.decl?_push, if_neg hne, he]
  refine ⟨⟨fun e decl he hg => ?_, fun e decl he f hf => hold f ?_, h.home⟩, hold⟩ <;>
    rw [Arena.decl?_push] at he <;> split at he
  · cases he
    exact absurd rfl hg
  · exact h.link e decl he hg
  · cases he
    exact hfields f hf
  · exact h.field e decl he f hf

/-- A change of a declaration that leaves its sort and its fields as they are. It may come to stand for a
global only if it is of the right sort. -/
theorem keeps_modify {f : Decl → Decl} (h : p.Formed)
    (hkind : ∀ decl, (f decl).kind.isLinkable = decl.kind.isLinkable ∧
      (f decl).kind.tableFields = decl.kind.tableFields)
    (hlink : (∀ decl, (f decl).global = decl.global) ∨ p.arena.Linkable d) :
    p.Keeps { p with arena := p.arena.modify d f } := by
  have hback : ∀ e decl, (p.arena.modify d f).decl? e = some decl →
      ∃ old, p.arena.decl? e = some old ∧ decl.kind.isLinkable = old.kind.isLinkable ∧
        decl.kind.tableFields = old.kind.tableFields ∧
        (decl.global = old.global ∨ old.kind.isLinkable = true) := by
    intro e decl he
    rw [Arena.decl?_modify] at he
    split at he
    · next hed =>
      obtain ⟨old, ho, rfl⟩ := Option.map_eq_some_iff.1 he
      refine ⟨old, ho, (hkind old).1, (hkind old).2, hlink.imp (fun hg => hg old) ?_⟩
      rintro ⟨decl, hd, hl⟩
      rw [hed, hd] at ho
      cases ho
      exact hl
    · exact ⟨decl, he, rfl, rfl, .inl rfl⟩
  have hold : ∀ e, p.arena.Linkable e → (p.arena.modify d f).Linkable e := by
    rintro e ⟨decl, he, hl⟩
    rw [Arena.Linkable, Arena.decl?_modify]
    split
    · exact ⟨f decl, by rw [he]; rfl, (hkind decl).1.trans hl⟩
    · exact ⟨decl, he, hl⟩
  refine ⟨⟨fun e decl he hg => ?_, fun e decl he x hx => hold x ?_, h.home⟩, hold⟩ <;>
    obtain ⟨old, ho, hk, hf, hgl⟩ := hback e decl he
  · rw [hk]
    rcases hgl with hgl | hl
    · exact h.link e old ho (hgl ▸ hg)
    · exact hl
  · exact h.field e old ho x (hf ▸ hx)

theorem keeps_record (h : p.Formed) (owner : DeclId) (key : Atom) (d : DeclId) (assigns : Bool) :
    p.Keeps { p with identities := p.identities.record owner key d assigns } := by
  refine ⟨⟨h.link, h.field, fun e i hi => ?_⟩, fun _ hd => hd⟩
  have hgroups : (p.identities.record owner key d assigns).groups.size =
      (p.identities.ensure owner key).2.groups.size := by
    simp [IdentityTable.record]
  have hgrow : p.identities.groups.size ≤ (p.identities.ensure owner key).2.groups.size := by
    unfold IdentityTable.ensure
    split <;> simp
  have hnew : (p.identities.ensure owner key).1 < (p.identities.ensure owner key).2.groups.size := by
    unfold IdentityTable.ensure
    split
    · next i hfind => exact (Array.findIdx?_eq_some_iff_getElem.1 hfind).1
    · simp
  have hhome : (p.identities.ensure owner key).2.home = p.identities.home := by
    unfold IdentityTable.ensure
    split <;> rfl
  rw [hgroups]
  change ((p.identities.ensure owner key).2.home.insert d (p.identities.ensure owner key).1)[e]? = some i at hi
  rw [hhome, Std.TreeMap.getElem?_insert] at hi
  split at hi
  · cases hi
    exact hnew
  · exact Nat.lt_of_lt_of_le (h.home e i hi) hgrow

end Program

/-! ## Construction steps -/

/-- A step keeps a program formed. It may rely on the declarations of `X` being linkable, and those that
`Y` takes from its answer are linkable afterwards. -/
def Build.Keeps {α : Type} (X : List DeclId) (m : Build α) (Y : α → List DeclId) : Prop :=
  ∀ p : Program, p.Formed → (∀ d ∈ X, p.arena.Linkable d) →
    p.Keeps (m.run p).2 ∧ ∀ d ∈ Y (m.run p).1, (m.run p).2.arena.Linkable d

namespace Build

variable {α β : Type} {X X' : List DeclId} {m : Build α} {Y Y' : α → List DeclId}

namespace Keeps

theorem mono (h : Keeps X m Y) (hX : ∀ d ∈ X, d ∈ X') (hY : ∀ a, ∀ d ∈ Y' a, d ∈ Y a) : Keeps X' m Y' :=
  fun p hp hx => have ⟨hk, hy⟩ := h p hp fun d hd => hx d (hX d hd)
    ⟨hk, fun d hd => hy d (hY _ d hd)⟩

theorem forget (h : Keeps X m Y) : Keeps X m fun _ => [] := h.mono (fun _ h => h) (by simp)

theorem bind {f : α → Build β} {Z : β → List DeclId} (h : Keeps X m Y) (hf : ∀ a, Keeps (X ++ Y a) (f a) Z) :
    Keeps X (m >>= f) Z := by
  intro p hp hx
  obtain ⟨hk, hy⟩ := h p hp hx
  have hpre : ∀ d ∈ X ++ Y (m.run p).1, (m.run p).2.arena.Linkable d := by
    intro d hd
    rcases List.mem_append.1 hd with hd | hd
    · exact hk.linkable d (hx d hd)
    · exact hy d hd
  obtain ⟨hk', hz⟩ := hf _ _ hk.formed hpre
  exact ⟨hk.trans hk', hz⟩

theorem pure {a : α} (h : ∀ d ∈ Y a, d ∈ X) : Keeps X (Pure.pure a : Build α) Y :=
  fun _ hp hx => ⟨.refl hp, fun d hd => hx d (h d hd)⟩

theorem map {g : α → β} (h : Keeps X m fun _ => []) : Keeps X (g <$> m) fun _ => [] :=
  fun p hp hx => ⟨(h p hp hx).1, by simp⟩

theorem forM {f : α → Build PUnit} {xs : List α} (h : ∀ x ∈ xs, Keeps X (f x) fun _ => []) :
    Keeps X (xs.forM f) fun _ => [] := by
  induction xs with
  | nil => exact .pure (by simp)
  | cons x xs ih =>
    exact .bind (h x (by simp)) fun _ => by simpa using ih fun y hy => h y (by simp [hy])

theorem mapM {f : α → Build β} {Z : β → List DeclId} {xs : List α} (h : ∀ x ∈ xs, Keeps X (f x) Z) :
    Keeps X (xs.mapM f) fun bs => bs.flatMap Z := by
  induction xs generalizing X with
  | nil => exact .pure (by simp)
  | cons x xs ih =>
    rw [List.mapM_cons]
    refine .bind (h x (by simp)) fun b => .bind (ih fun y hy => ?_) fun bs => .pure (by simp +contextual)
    exact (h y (by simp [hy])).mono (by simp +contextual) fun _ _ hd => hd

theorem forIn {f : α → PUnit → Build (ForInStep PUnit)} {xs : List α}
    (h : ∀ x ∈ xs, Keeps X (f x ⟨⟩) fun _ => []) : Keeps X (forIn xs ⟨⟩ f) fun _ => [] := by
  induction xs with
  | nil => exact .pure (by simp)
  | cons x xs ih =>
    rw [List.forIn_cons]
    refine .bind (h x (by simp)) fun r => ?_
    cases r with
    | done u => exact .pure (by simp)
    | yield u => simpa using ih fun y hy => h y (by simp [hy])

end Keeps

theorem intern_keeps (text : String) : Keeps X (intern text) fun _ => [] :=
  fun _ hp _ => ⟨⟨⟨hp.link, hp.field, hp.home⟩, fun _ hd => hd⟩, by simp⟩

theorem ensureGlobal_keeps (category : Category) (name : Atom) : Keeps X (ensureGlobal category name) fun _ => [] :=
  fun _ hp _ => ⟨⟨⟨hp.link, hp.field, hp.home⟩, fun _ hd => hd⟩, by simp⟩

theorem ensureField_keeps (g : GlobalId) (key : Atom) : Keeps X (ensureField g key) fun _ => [] :=
  fun _ hp _ => ⟨⟨⟨hp.link, hp.field, hp.home⟩, fun _ hd => hd⟩, by simp⟩

theorem addSite_keeps (g : GlobalId) (site : DeclId) : Keeps X (addSite g site) fun _ => [] :=
  fun _ hp _ => ⟨⟨⟨hp.link, hp.field, hp.home⟩, fun _ hd => hd⟩, by simp⟩

theorem record_keeps (owner : DeclId) (key : Atom) (d : DeclId) (assigns : Bool) :
    Keeps X (record owner key d assigns) fun _ => [] :=
  fun _ hp _ => ⟨Program.keeps_record hp owner key d assigns, by simp⟩

/-- Reading the program: the fields of its table constructors are linkable. -/
theorem get_keeps (value : DeclId) : Keeps X (get : Build Program) fun p => (p.arena.keyedFields value).map Prod.snd := by
  refine fun p hp _ => ⟨.refl hp, fun d hd => ?_⟩
  obtain ⟨⟨key, f⟩, hmem, rfl⟩ := List.mem_map.1 hd
  change (key, f) ∈ p.arena.keyedFields value at hmem
  unfold Arena.keyedFields at hmem
  split at hmem
  · next fields hk =>
    obtain ⟨decl, hdecl, hkind⟩ := Option.map_eq_some_iff.1 hk
    obtain ⟨e, he, hkey⟩ := List.mem_filterMap.1 hmem
    obtain ⟨_, -, heq⟩ := Option.map_eq_some_iff.1 hkey
    cases heq
    exact hp.field value decl hdecl f (by rwa [hkind])
  · cases hmem

theorem push_keeps {kind : DeclKind} (h : ∀ f ∈ kind.tableFields, f ∈ X) :
    Keeps X (push kind) fun d => if kind.isLinkable then [d] else [] := by
  refine fun p hp hx => ⟨Program.keeps_push hp fun f hf => hx f (h f hf), fun d hd => ?_⟩
  split at hd
  · next hl =>
    cases List.mem_singleton.1 hd
    exact ⟨{ kind }, by simp [push, StateT.run, Arena.decl?_push, modifyGet, MonadStateOf.modifyGet, StateT.modifyGet,
      Pure.pure], hl⟩
  · cases hd

theorem push_plain {kind : DeclKind} (h : kind.tableFields = []) : Keeps X (push kind) fun _ => [] :=
  (push_keeps (by simp [h])).forget

theorem modify_keeps {d : DeclId} {f : Decl → Decl}
    (hkind : ∀ decl, (f decl).kind.isLinkable = decl.kind.isLinkable ∧
      (f decl).kind.tableFields = decl.kind.tableFields)
    (hglobal : (∀ decl, (f decl).global = decl.global) ∨ d ∈ X) :
    Keeps X (modifyArena (·.modify d f)) fun _ => [] :=
  fun _ hp hx => ⟨Program.keeps_modify hp hkind (hglobal.imp_right (hx d)), by simp⟩

theorem setParent_keeps (child parent : DeclId) : Keeps X (setParent child parent) fun _ => [] :=
  modify_keeps (fun _ => ⟨rfl, rfl⟩) (.inl fun _ => rfl)

theorem linkGlobal_keeps {d : DeclId} (h : d ∈ X) (g : GlobalId) : Keeps X (linkGlobal d g) fun _ => [] :=
  modify_keeps (fun _ => ⟨rfl, rfl⟩) (.inr h)

theorem modifyKind_keeps (d : DeclId) {f : DeclKind → DeclKind}
    (h : ∀ kind, (f kind).isLinkable = kind.isLinkable ∧ (f kind).tableFields = kind.tableFields) :
    Keeps X (modifyArena (·.modifyKind d f)) fun _ => [] :=
  modify_keeps (fun decl => h decl.kind) (.inl fun _ => rfl)

theorem addRef_keeps (target use : DeclId) : Keeps X (addRef target use) fun _ => [] :=
  modifyKind_keeps target fun kind => by cases kind <;> exact ⟨rfl, rfl⟩

theorem bindDoc_keeps (doc target : DeclId) : Keeps X (bindDoc doc target) fun _ => [] :=
  .bind (modify_keeps (fun _ => ⟨rfl, rfl⟩) (.inl fun _ => rfl)) fun _ =>
    modifyKind_keeps doc fun kind => by cases kind <;> exact ⟨rfl, rfl⟩

theorem add_keeps {kind : DeclKind} (h : ∀ f ∈ kind.tableFields, f ∈ X) :
    Keeps X (add kind) fun d => if kind.isLinkable then [d] else [] :=
  .bind (push_keeps h) fun _ => .bind (.forM fun _ _ => setParent_keeps _ _) fun _ => .pure (by simp +contextual)

theorem add_plain {kind : DeclKind} (h : kind.tableFields = []) : Keeps X (add kind) fun _ => [] :=
  (add_keeps (by simp [h])).forget

theorem add_linkable {kind : DeclKind} (hlink : kind.isLinkable = true) (h : kind.tableFields = []) :
    Keeps X (add kind) fun d => [d] :=
  (add_keeps (by simp [h])).mono (fun _ hd => hd) (by simp [hlink])

theorem recordTableFields_keeps (owner value : DeclId) : Keeps X (recordTableFields owner value) fun _ => [] :=
  .bind (get_keeps value) fun _ => .bind (.forIn fun _ _ => .bind (record_keeps _ _ _ _) fun _ => .pure (by simp))
    fun _ => .pure (by simp)

theorem registerTableFields_keeps (g : GlobalId) (value : DeclId) :
    Keeps X (registerTableFields g value) fun _ => [] := by
  refine .bind (get_keeps value) fun p => .bind (.forIn fun entry hentry => ?_) fun _ => .pure (by simp)
  have hfield : entry.2 ∈ X ++ (p.arena.keyedFields value).map Prod.snd :=
    List.mem_append_right _ (List.mem_map_of_mem hentry)
  refine .bind (ensureField_keeps _ _) fun sub => .bind (addSite_keeps _ _) fun _ => ?_
  exact .bind (linkGlobal_keeps (by simpa using hfield) _) fun _ => .pure (by simp)

/-- The global of an access on a global. -/
theorem linkField_keeps {access : DeclId} (h : access ∈ X) (parent : GlobalId) (key : Atom) (assigns : Bool) :
    Keeps X (do
      let g ← ensureField parent key
      linkGlobal access g
      if assigns then
        addSite g access : Build Unit) fun _ => [] := by
  refine .bind (ensureField_keeps _ _) fun g => .bind (linkGlobal_keeps (by simp [h]) _) fun _ => ?_
  split
  · exact addSite_keeps _ _
  · exact .pure (by simp)

theorem linkMember_keeps {access : DeclId} (h : access ∈ X) (base : DeclId) (key? : Option Atom) (assigns : Bool) :
    Keeps X (linkMember access base key? assigns) fun _ => [] := by
  unfold linkMember
  cases key? with
  | none => exact .pure (by simp)
  | some key =>
    refine .bind (get_keeps access) fun p => ?_
    dsimp only
    -- the global is looked up in whatever program recording the identity has left
    split
    · refine .bind (record_keeps _ _ _ _) fun _ => .bind (get_keeps access) fun p => ?_
      split
      · exact linkField_keeps (by simp [h]) _ _ _
      · exact .pure (by simp)
    · refine .bind (get_keeps access) fun p => ?_
      split
      · exact linkField_keeps (by simp [h]) _ _ _
      · exact .pure (by simp)

theorem addFields_keeps {make : Atom → DeclId → DeclKind} {Z : DeclId → List DeclId}
    (h : ∀ key content, Keeps X (add (make key content)) Z) (fields : List (String × DeclId)) :
    Keeps X (addFields make fields) fun ds => ds.flatMap Z :=
  .mapM fun _ _ => .bind (intern_keeps _) fun _ => by simpa using h _ _

theorem addParam_keeps (role : Role) (name : String) : Keeps X (addParam role name) fun _ => [] :=
  .bind (intern_keeps _) fun _ => push_plain rfl

theorem addParams_keeps (names : List String) : Keeps X (names.mapM (addParam .param)) fun _ => [] :=
  (Keeps.mapM fun _ _ => addParam_keeps _ _).forget

theorem addMember_keeps (base : DeclId) (member : Member) (value? : Option DeclId) :
    Keeps X (addMember base member value?) fun _ => [] := by
  cases value? with
  | none =>
    exact .bind (add_linkable rfl rfl) fun d => .bind (linkMember_keeps (by simp) _ _ _) fun _ => .pure (by simp)
  | some value =>
    exact .bind (add_linkable rfl rfl) fun d => .bind (linkMember_keeps (by simp) _ _ _) fun _ => .pure (by simp)

theorem addNameToken_keeps (access : DeclId) : Keeps X (addNameToken access) fun _ => [] := by
  refine .bind (get_keeps access) fun p => ?_
  split
  · exact .pure (by simp)
  · next kind _ =>
    split
    · refine .bind (Keeps.forget (push_keeps ?_)) fun d => .bind (setParent_keeps _ _) fun _ => .pure (by simp)
      split <;> simp [DeclKind.tableFields]
    · exact .pure (by simp)

theorem addDoc_keeps (target : DeclId) {kind : DeclKind} (h : kind.tableFields = []) :
    Keeps X (addDoc target kind) fun _ => [] :=
  .bind (add_plain h) fun _ => .bind (bindDoc_keeps _ _) fun _ => .pure (by simp)

theorem addTypeName_keeps (name : String) : Keeps X (addTypeName name) fun _ => [] :=
  .bind (intern_keeps _) fun _ => add_plain rfl

theorem addClass_keeps (name : String) (supers : List String) : Keeps X (addClass name supers) fun _ => [] := by
  refine .bind (intern_keeps _) fun name => .bind (.forget (.mapM fun _ _ => addTypeName_keeps _)) fun supers => ?_
  refine .bind (add_linkable rfl rfl) fun doc => .bind (ensureGlobal_keeps _ _) fun g => ?_
  exact .bind (addSite_keeps _ _) fun _ => .bind (linkGlobal_keeps (by simp) _) fun _ => .pure (by simp)

end Build

open Build in
/-- Every command keeps a program formed. -/
theorem Command.run_keeps (c : Command) : Keeps [] c.run fun _ => [] := by
  cases c with
  | nil | boolean _ | integer _ | number _ | call _ _ | varargs | paren _ | tyUnion _ | tyInteger _ | tyBoolean _
  | tyFunction _ _ | tyArray _ => exact (add_plain rfl).map
  | string s | tyGeneric s | tyString s => exact .map (.bind (intern_keeps _) fun _ => add_plain rfl)
  | table fields =>
    have hfields : Keeps [] (addFields .tableField fields) fun ds => ds.flatMap fun d => [d] :=
      addFields_keeps (fun _ _ => add_linkable rfl rfl) fields
    exact .map (.bind hfields fun ds => .forget (add_keeps (by simp [DeclKind.tableFields])))
  | tyTable fields =>
    exact .map (.bind (addFields_keeps (fun _ _ => add_plain rfl) fields) fun _ => add_plain rfl)
  | function params => exact .map (.bind (addParams_keeps _) fun _ => add_plain rfl)
  | method params =>
    exact .map (.bind (addParam_keeps _ _) fun _ => .bind (addParams_keeps _) fun _ => add_plain rfl)
  | ret func exprs =>
    exact .map (.bind (add_plain rfl) fun d => .bind (setParent_keeps _ _) fun _ =>
      .bind (modifyKind_keeps func fun kind => by cases kind <;> exact ⟨rfl, rfl⟩) fun _ => .pure (by simp))
  | localVar name value =>
    refine .map (.bind (intern_keeps _) fun _ => .bind (add_plain rfl) fun d =>
      .bind (Y := fun _ => []) ?_ fun _ => .pure (by simp))
    cases value with
    | none => exact .pure (by simp)
    | some v => exact recordTableFields_keeps d v
  | getLocal target =>
    exact .map (.bind (push_plain rfl) fun _ =>
      .bind (addRef_keeps _ _) fun _ => .pure (by simp))
  | setLocal target value =>
    exact .map (.bind (push_plain rfl) fun _ => .bind (setParent_keeps _ _) fun _ =>
      .bind (addRef_keeps _ _) fun _ => .bind (recordTableFields_keeps _ _) fun _ => .pure (by simp))
  | getGlobal name =>
    exact .map (.bind (intern_keeps _) fun _ => .bind (add_linkable rfl rfl) fun _ =>
      .bind (ensureGlobal_keeps _ _) fun _ => .bind (linkGlobal_keeps (by simp) _) fun _ =>
        .pure (by simp))
  | setGlobal name value =>
    exact .map (.bind (intern_keeps _) fun _ => .bind (add_linkable rfl rfl) fun _ =>
      .bind (ensureGlobal_keeps _ _) fun _ => .bind (addSite_keeps _ _) fun _ =>
        .bind (linkGlobal_keeps (by simp) _) fun _ => .bind (registerTableFields_keeps _ _) fun _ =>
          .pure (by simp))
  | getField base key | setField base key _ | getMethod base key | setMethod base key _ =>
    exact .map (.bind (intern_keeps _) fun _ => addMember_keeps _ _ _)
  | getIndex base key | setIndex base key _ =>
    refine .map (.bind (Y := fun _ => []) ?_ fun _ => addMember_keeps _ _ _)
    cases key with
    | none => exact .pure (by simp)
    | some k => exact .map (intern_keeps k)
  | select source index =>
    refine .map (.bind (push_plain rfl) fun d => .bind (get_keeps d) fun p => ?_)
    dsimp only
    split
    · exact .bind (setParent_keeps _ _) fun _ => .pure (by simp)
    · exact .pure (by simp)
  | docType | docReturn | docVararg | docOverload => exact .map (addDoc_keeps _ rfl)
  | docClass name supers => exact .map (addClass_keeps _ _)
  | docField cls name ty =>
    exact .map (.bind (intern_keeps _) fun _ => .bind (add_plain rfl) fun d => .bind (setParent_keeps _ _) fun _ =>
      .bind (modifyKind_keeps cls fun kind => by cases kind <;> exact ⟨rfl, rfl⟩) fun _ => .pure (by simp))
  | docParam func name ty =>
    exact .map (.bind (intern_keeps _) fun _ => .bind (addDoc_keeps _ rfl) fun doc => .bind (get_keeps doc) fun _ =>
      .bind (.forM fun _ _ => bindDoc_keeps _ _) fun _ => .pure (by simp))
  | docGeneric func params =>
    exact .map (.bind (.forget (.mapM fun _ _ => intern_keeps _)) fun _ => addDoc_keeps _ rfl)
  | tyName name => exact .map (addTypeName_keeps _)
  | nameToken access => exact .map (addNameToken_keeps _)
  | attach child parent => exact .bind (setParent_keeps _ _) fun _ => .pure (by simp)
  | bind doc target => exact .bind (bindDoc_keeps _ _) fun _ => .pure (by simp)
  | atom text => exact .map (intern_keeps _)
  | askParams func => exact .bind (get_keeps func) fun _ => .pure (by simp)
  | askParam func name => exact .bind (intern_keeps _) fun _ => .bind (get_keeps func) fun _ => .pure (by simp)
  | askSize => exact .bind (get_keeps ⟨0⟩) fun _ => .pure (by simp)

namespace Program

/-- Programs that a script builds, with the built-in types or without. -/
def Built (p : Program) : Prop :=
  ∃ script, p = (empty.build script).2 ∨ p = (withBuiltins.build script).2

theorem formed_empty : empty.Formed := by
  refine ⟨?_, ?_, ?_⟩ <;> intros <;> simp_all [empty, Arena.decl?, Arena.empty, IdentityTable.empty]

theorem formed_withBuiltins : withBuiltins.Formed := by
  have h : Build.Keeps [] (builtinTypes.forM fun name => discard (Build.addClass name [])) fun _ => [] :=
    .forM fun _ _ => .map (Build.addClass_keeps _ _)
  exact (h empty formed_empty (by simp)).1.formed

theorem formed_build {p : Program} (h : p.Formed) (script : List Command) : (p.build script).2.Formed := by
  have hkeeps : Build.Keeps [] (script.mapM Command.run) fun _ => [] :=
    .forget (.mapM fun c _ => c.run_keeps)
  exact (hkeeps p h (by simp)).1.formed

theorem Built.formed {p : Program} (h : p.Built) : p.Formed := by
  obtain ⟨script, rfl | rfl⟩ := h
  · exact formed_build formed_empty script
  · exact formed_build formed_withBuiltins script

end Program

end LuaInfer
