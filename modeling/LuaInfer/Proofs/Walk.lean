import LuaInfer.Proofs.Draft
import LuaInfer.Proofs.Template
/-!
# A walk is the preorder of the paths below its root

A declaration can have several parents, and a handle can have no declaration. So what a walk goes through is not a set of
declarations but the paths from its root that end at a declaration: a path is the list of the positions of a child among its
siblings (`Arena.visit?`), and preorder is the order of such lists. With little fuel a walk goes through the short paths
(`Arena.walkFrom_eq`), whatever the arena. Where nothing below the root is below itself, no path is as long as the arena
(`Arena.length_lt_size`), and the fuel of `Arena.walk` is enough.
-/

namespace LuaInfer

namespace Arena

variable {a : Arena} {root d : DeclId} {kind : DeclKind} {path : List Nat}

theorem children_of_kind? (h : a.kind? root = some kind) : a.children root = kind.children := by
  rw [children, h]

/-! ## Paths -/

/-- What a visitor is shown at the end of a path, which names a child by its position among its siblings. -/
def visit? (a : Arena) : DeclId → List Nat → Option (DeclId × DeclKind)
  | root, [] => (a.kind? root).map (root, ·)
  | root, i :: path => (a.children root)[i]?.bind fun child => a.visit? child path

theorem visit?_nil (h : a.kind? root = some kind) : a.visit? root [] = some (root, kind) := by
  rw [visit?, h, Option.map_some]

theorem visit?_cons {i : Nat} : a.visit? root (i :: path) = some (d, kind) ↔
    ∃ child, (a.children root)[i]? = some child ∧ a.visit? child path = some (d, kind) :=
  Option.bind_eq_some_iff

theorem visit?_of_kind?_eq_none (h : a.kind? root = none) (path : List Nat) : a.visit? root path = none := by
  cases path with
  | nil => rw [visit?, h, Option.map_none]
  | cons i path => rw [visit?, children, h, List.getElem?_nil, Option.bind_none]

/-- The paths end at what stands at or below their start. -/
theorem exists_visit?_iff : (∃ path, a.visit? root path = some (d, kind)) ↔ a.Within root d ∧ a.kind? d = some kind := by
  constructor
  · rintro ⟨path, h⟩
    induction path generalizing root with
    | nil =>
      obtain ⟨k, hk, he⟩ := Option.map_eq_some_iff.1 h
      cases he
      exact ⟨.refl, hk⟩
    | cons i path ih =>
      obtain ⟨child, hchild, h⟩ := visit?_cons.1 h
      exact (ih h).imp_left (.head (List.mem_of_getElem? hchild))
  · rintro ⟨hd, hk⟩
    induction hd using Relation.ReflTransGen.head_induction_on with
    | refl => exact ⟨[], visit?_nil hk⟩
    | head hchild _ ih =>
      obtain ⟨i, hi⟩ := List.getElem?_of_mem hchild
      obtain ⟨path, h⟩ := ih
      exact ⟨i :: path, visit?_cons.2 ⟨_, hi, h⟩⟩

/-- The paths from `root` of fewer than `fuel` steps that end at a declaration, in preorder. -/
def paths (a : Arena) : Nat → DeclId → List (List Nat)
  | 0, _ => []
  | fuel + 1, root =>
    match a.kind? root with
    | none => []
    | some kind => [] :: kind.children.zipIdx.flatMap fun (child, i) => (a.paths fuel child).map (i :: ·)

theorem paths_of_kind? (h : a.kind? root = some kind) (fuel : Nat) : a.paths (fuel + 1) root =
    [] :: (a.children root).zipIdx.flatMap fun (child, i) => (a.paths fuel child).map (i :: ·) := by
  rw [paths, children_of_kind? h, h]

theorem mem_paths {fuel : Nat} : path ∈ a.paths fuel root ↔ (a.visit? root path).isSome ∧ path.length < fuel := by
  induction fuel generalizing root path with
  | zero => simp [paths]
  | succ fuel ih =>
    cases hk : a.kind? root with
    | none => simp [paths, hk, visit?_of_kind?_eq_none hk]
    | some kind =>
      rw [paths_of_kind? hk]
      cases path with
      | nil => simp [visit?_nil hk]
      | cons i path =>
        cases hi : (a.children root)[i]? with
        | none =>
          have hnone : a.visit? root (i :: path) = none := by rw [visit?, hi, Option.bind_none]
          simp [hnone, List.mem_zipIdx_iff_getElem?, hi]
        | some child =>
          have hsome : a.visit? root (i :: path) = a.visit? child path := by rw [visit?, hi, Option.bind_some]
          simp [hsome, List.mem_zipIdx_iff_getElem?, hi, ih]

/-- A path comes before those that go on from it, and these before the paths through the next siblings. -/
theorem pairwise_paths (a : Arena) (fuel : Nat) (root : DeclId) : (a.paths fuel root).Pairwise (· < ·) := by
  induction fuel generalizing root with
  | zero => exact .nil
  | succ fuel ih =>
    cases hk : a.kind? root with
    | none =>
      rw [paths, hk]
      exact .nil
    | some kind =>
      rw [paths_of_kind? hk, List.pairwise_cons, List.pairwise_flatMap]
      refine ⟨fun path hpath => ?_, fun (child, i) _ => ?_, ?_⟩
      · obtain ⟨_, -, hpath⟩ := List.mem_flatMap.1 hpath
        obtain ⟨path, -, rfl⟩ := List.mem_map.1 hpath
        exact List.nil_lt_cons _ _
      · exact List.pairwise_map.2 ((ih child).imp fun hlt => List.cons_lt_cons_iff.2 (.inr ⟨rfl, hlt⟩))
      · -- what is below two siblings compares as their positions do
        have hpositions : (a.children root).zipIdx.Pairwise (·.2 < ·.2) := by
          rw [← List.pairwise_map, List.zipIdx_map_snd]
          exact List.pairwise_lt_range'
        refine hpositions.imp fun hlt path hpath path' hpath' => ?_
        obtain ⟨path, -, rfl⟩ := List.mem_map.1 hpath
        obtain ⟨path', -, rfl⟩ := List.mem_map.1 hpath'
        exact List.cons_lt_cons_iff.2 (.inl hlt)

/-! ## Visits -/

/-- What a visitor is shown along the paths of fewer than `fuel` steps. -/
def visits (a : Arena) (fuel : Nat) (root : DeclId) : List (DeclId × DeclKind) :=
  (a.paths fuel root).filterMap (a.visit? root)

theorem visits_of_kind?_eq_none (h : a.kind? root = none) (fuel : Nat) : a.visits (fuel + 1) root = [] := by
  rw [visits, paths, h, List.filterMap_nil]

/-- A declaration is shown before its children, and what is below a child before the next child. -/
theorem visits_of_kind? (h : a.kind? root = some kind) (fuel : Nat) :
    a.visits (fuel + 1) root = (root, kind) :: kind.children.flatMap (a.visits fuel) := by
  have hchild : ∀ x ∈ kind.children.zipIdx,
      ((a.paths fuel x.1).map (x.2 :: ·)).filterMap (a.visit? root) = a.visits fuel x.1 := by
    intro (child, i) hx
    rw [← children_of_kind? h, List.mem_zipIdx_iff_getElem?] at hx
    rw [List.filterMap_map]
    refine List.filterMap_congr fun path _ => ?_
    rw [Function.comp, visit?, hx, Option.bind_some]
  rw [visits, paths_of_kind? h, children_of_kind? h, List.filterMap_cons_some (visit?_nil h), List.filterMap_flatMap,
    List.flatMap_congr hchild, ← List.flatMap_map Prod.fst, List.zipIdx_map_fst]

/-! ## Stopping early -/

variable {goOn : DeclId → DeclKind → Bool} {seen : List DeclId}

/-- Shows a visitor one declaration after the other, until it says to stop. -/
def present (goOn : DeclId → DeclKind → Bool) : List (DeclId × DeclKind) → List DeclId → List DeclId × Bool
  | [], seen => (seen, true)
  | (d, kind) :: vs, seen => if goOn d kind then present goOn vs (d :: seen) else (d :: seen, false)

theorem present_append (vs vs' : List (DeclId × DeclKind)) (seen : List DeclId) : present goOn (vs ++ vs') seen =
    if (present goOn vs seen).2 then present goOn vs' (present goOn vs seen).1 else present goOn vs seen := by
  induction vs generalizing seen with
  | nil => rfl
  | cons v vs ih =>
    rw [List.cons_append, present, present]
    split
    · exact ih _
    · rfl

/-- What is seen is cut right after the first declaration at which the visitor said to stop. -/
theorem present_eq (vs : List (DeclId × DeclKind)) (seen : List DeclId) : present goOn vs seen =
    (((vs.take (vs.findIdx (fun v => !goOn v.1 v.2) + 1)).map Prod.fst).reverse ++ seen,
      vs.all fun v => goOn v.1 v.2) := by
  induction vs generalizing seen with
  | nil => rfl
  | cons v vs ih =>
    rw [present, List.findIdx_cons, List.all_cons]
    cases hv : goOn v.1 v.2 with
    | false => simp
    | true => simp [ih]

/-- Once a walk through siblings was stopped it visits nothing more. -/
theorem foldl_present (vs : DeclId → List (DeclId × DeclKind)) (children : List DeclId) (acc : List DeclId × Bool) :
    children.foldl (fun (seen, more) child => if more then present goOn (vs child) seen else (seen, more)) acc =
      if acc.2 then present goOn (children.flatMap vs) acc.1 else acc := by
  induction children generalizing acc with
  | nil =>
    obtain ⟨seen, more⟩ := acc
    cases more <;> rfl
  | cons child children ih =>
    obtain ⟨seen, more⟩ := acc
    rw [List.foldl_cons, ih, List.flatMap_cons, present_append]
    cases more <;> rfl

/-- A walk goes through the paths of fewer steps than it has fuel. -/
theorem walkFrom_eq (fuel : Nat) (root : DeclId) (seen : List DeclId) :
    a.walkFrom goOn fuel root seen = present goOn (a.visits fuel root) seen := by
  induction fuel generalizing root seen with
  | zero => rfl
  | succ fuel ih =>
    rw [walkFrom]
    cases hk : a.kind? root with
    | none => rw [visits_of_kind?_eq_none hk, present]
    | some kind =>
      simp only [ih]
      rw [visits_of_kind? hk, present, foldl_present, if_pos rfl]

theorem walk_eq (a : Arena) (goOn : DeclId → DeclKind → Bool) (root : DeclId) : a.walk goOn root =
    let vs := a.visits (a.size + 1) root
    ((vs.take (vs.findIdx (fun v => !goOn v.1 v.2) + 1)).map Prod.fst, vs.all fun v => goOn v.1 v.2) := by
  rw [walk, walkFrom_eq, present_eq, List.append_nil]
  dsimp only
  rw [List.reverse_reverse]

theorem anyBelow_eq (a : Arena) (p : DeclKind → Bool) (root : DeclId) :
    a.anyBelow p root = (a.visits (a.size + 1) root).any fun v => p v.2 := by
  rw [anyBelow, walk_eq, List.any_eq_not_all_not]

/-- What a walk finds is at or below its root, in every arena. -/
theorem exists_within_of_anyBelow {p : DeclKind → Bool} (h : a.anyBelow p root = true) :
    ∃ d kind, a.Within root d ∧ a.kind? d = some kind ∧ p kind = true := by
  rw [anyBelow_eq, List.any_eq_true] at h
  obtain ⟨⟨d, kind⟩, hv, hp⟩ := h
  obtain ⟨path, -, hpath⟩ := List.mem_filterMap.1 hv
  obtain ⟨hd, hk⟩ := exists_visit?_iff.1 ⟨path, hpath⟩
  exact ⟨d, kind, hd, hk, hp⟩

/-! ## Fuel -/

/-- Nothing at or below `root` is below itself. -/
def AcyclicBelow (a : Arena) (root : DeclId) : Prop :=
  ∀ d, a.Within root d → ¬ Relation.TransGen (fun x y => y ∈ a.children x) d d

theorem AcyclicBelow.child (h : a.AcyclicBelow root) (hd : d ∈ a.children root) : a.AcyclicBelow d :=
  fun e he => h e (.head hd he)

/-- It is enough that what stands below a declaration was made before it. -/
theorem acyclicBelow_of_children_lt (h : ∀ i : Fin a.decls.size, ∀ child ∈ a.decls[i].kind.children,
    child.index < a.decls.size → child.index < i) (root : DeclId) : a.AcyclicBelow root := by
  have hchild : ∀ {x y}, y ∈ a.children x → x.index < a.size ∧ (y.index < a.size → y.index < x.index) := by
    intro x y hy
    unfold children at hy
    split at hy
    · next kind hk =>
      obtain ⟨decl, hd, rfl⟩ := Option.map_eq_some_iff.1 hk
      obtain ⟨hx, rfl⟩ := Array.getElem?_eq_some_iff.1 hd
      exact ⟨hx, h ⟨x.index, hx⟩ y hy⟩
    · cases hy
  have hbelow : ∀ {x y}, Relation.TransGen (fun x y => y ∈ a.children x) x y →
      x.index < a.size ∧ (y.index < a.size → y.index < x.index) := by
    intro x y hxy
    induction hxy with
    | single hy => exact hchild hy
    | tail _ hz ih =>
      exact ⟨ih.1, fun hlt => ((hchild hz).2 hlt).trans (ih.2 (hchild hz).1)⟩
  intro d _ hd
  exact Nat.lt_irrefl _ ((hbelow hd).2 (hbelow hd).1)

theorem length_le_size {ds : List DeclId} (hn : ds.Nodup) (h : ∀ d ∈ ds, d.index < a.size) : ds.length ≤ a.size := by
  have hsub : ds.map DeclId.index ⊆ List.range a.size := by
    intro i hi
    obtain ⟨d, hd, rfl⟩ := List.mem_map.1 hi
    exact List.mem_range.2 (h d hd)
  have hle := ((hn.map fun d e he => congrArg DeclId.mk he).subperm hsub).length_le
  rwa [List.length_map, List.length_range] at hle

theorem index_lt_of_visit? (hpath : (a.visit? root path).isSome) : root.index < a.size := by
  cases hk : a.kind? root with
  | none =>
    rw [visit?_of_kind?_eq_none hk] at hpath
    cases hpath
  | some kind => exact index_lt_of_kind? hk

/-- A path does not come back to what was passed on the way to its start. -/
theorem length_passed_add_le {passed : List DeclId} (h : a.AcyclicBelow root) (hn : passed.Nodup)
    (hpassed : ∀ x ∈ passed, x.index < a.size ∧ a.Within x root) (hpath : (a.visit? root path).isSome) :
    passed.length + path.length ≤ a.size := by
  induction path generalizing root passed with
  | nil => exact length_le_size hn fun x hx => (hpassed x hx).1
  | cons i path ih =>
    obtain ⟨⟨d, kind⟩, hv⟩ := Option.isSome_iff_exists.1 hpath
    obtain ⟨child, hi, hv⟩ := visit?_cons.1 hv
    have hchild := List.mem_of_getElem? hi
    have hrest := Option.isSome_of_eq_some hv
    -- from a child that was passed there is a way to `root`, and so from `root` to itself
    have hnew : child ∉ passed := fun hmem => h root .refl (.head' hchild (hpassed child hmem).2)
    have hle := ih (h.child hchild) (List.nodup_cons.2 ⟨hnew, hn⟩)
      (List.forall_mem_cons.2 ⟨⟨index_lt_of_visit? hrest, .refl⟩, fun x hx => (hpassed x hx).imp_right (.tail · hchild)⟩) hrest
    rw [List.length_cons] at hle ⊢
    omega

theorem length_lt_size (h : a.AcyclicBelow root) (hpath : (a.visit? root path).isSome) : path.length < a.size := by
  have hstart : ∀ x ∈ [root], x.index < a.size ∧ a.Within x root :=
    List.forall_mem_singleton.2 ⟨index_lt_of_visit? hpath, .refl⟩
  have hle := length_passed_add_le h (List.nodup_singleton root) hstart hpath
  rw [List.length_singleton] at hle
  omega

/-- Where nothing is below itself, a walk has fuel for every path. -/
theorem mem_paths_size (h : a.AcyclicBelow root) :
    path ∈ a.paths (a.size + 1) root ↔ (a.visit? root path).isSome = true :=
  mem_paths.trans (and_iff_left_of_imp fun hpath => Nat.lt_succ_of_lt (length_lt_size h hpath))

theorem mem_visits_size (h : a.AcyclicBelow root) :
    (d, kind) ∈ a.visits (a.size + 1) root ↔ a.Within root d ∧ a.kind? d = some kind := by
  rw [visits, List.mem_filterMap, ← exists_visit?_iff]
  refine exists_congr fun path => and_iff_right_of_imp fun hpath => ?_
  exact (mem_paths_size h).2 (Option.isSome_of_eq_some hpath)

theorem anyBelow_iff (h : a.AcyclicBelow root) (p : DeclKind → Bool) :
    a.anyBelow p root = true ↔ ∃ d kind, a.Within root d ∧ a.kind? d = some kind ∧ p kind = true := by
  refine ⟨exists_within_of_anyBelow, fun ⟨d, kind, hd, hk, hp⟩ => ?_⟩
  rw [anyBelow_eq, List.any_eq_true]
  exact ⟨(d, kind), (mem_visits_size h).2 ⟨hd, hk⟩, hp⟩

/-- Where nothing is below itself, a walk goes through the paths that end at a declaration, each once and in preorder, up to
the first declaration at which the visitor says to stop. It tells whether there was one. So something below is of a kind
asked for, or mentions a type parameter, if such a declaration can be reached through children. -/
theorem walk_preorder (h : a.AcyclicBelow root) : ∃ paths : List (List Nat),
    (paths.Pairwise (· < ·) ∧ ∀ path, path ∈ paths ↔ (a.visit? root path).isSome = true) ∧
    (∀ goOn, a.walk goOn root =
      let vs := paths.filterMap (a.visit? root)
      ((vs.take (vs.findIdx (fun v => !goOn v.1 v.2) + 1)).map Prod.fst, vs.all fun v => goOn v.1 v.2)) ∧
    (∀ p, a.anyBelow p root = true ↔ ∃ d kind, a.Within root d ∧ a.kind? d = some kind ∧ p kind = true) ∧
    ∀ sig : Signature, sig.references a root = true ↔
      ∃ d kind, a.Within root d ∧ a.kind? d = some kind ∧ (sig.paramUse? kind).isSome = true :=
  ⟨a.paths (a.size + 1) root, ⟨a.pairwise_paths _ root, fun _ => mem_paths_size h⟩, fun goOn => a.walk_eq goOn root,
    anyBelow_iff h, fun _ => anyBelow_iff h _⟩

/-- A type parameter in a union, where it also is the element of an array, beside a handle without a declaration. -/
def sampleShared : Arena :=
  ⟨#[{ kind := .tyGeneric ⟨0⟩ }, { kind := .tyArray ⟨0⟩ }, { kind := .tyUnion [⟨1⟩, ⟨9⟩, ⟨0⟩] }]⟩

theorem walk_preorder_sampleShared : sampleShared.AcyclicBelow ⟨2⟩ ∧
    (∃ paths : List (List Nat), paths.Pairwise (· < ·) ∧ [0, 0] ∈ paths ∧ [1] ∉ paths ∧ [2] ∈ paths ∧
      (paths.filterMap (sampleShared.visit? ⟨2⟩)).length = 4) ∧
    sampleShared.walk (fun d _ => d ≠ ⟨1⟩) ⟨2⟩ = ([⟨2⟩, ⟨1⟩], false) ∧
    ∃ d kind, sampleShared.Within ⟨2⟩ d ∧ sampleShared.kind? d = some kind ∧ (kind matches .tyGeneric _) = true := by
  have hacyclic : sampleShared.AcyclicBelow ⟨2⟩ := acyclicBelow_of_children_lt (by decide) _
  obtain ⟨paths, ⟨hsorted, hmem⟩, hwalk, hany, -⟩ := walk_preorder hacyclic
  have hlength : (paths.filterMap (sampleShared.visit? ⟨2⟩)).length = 4 := by
    have h : (sampleShared.walk (fun _ _ => true) ⟨2⟩).1.length = 4 := by decide
    rw [hwalk] at h
    simpa [List.findIdx_eq_length_of_false] using h
  refine ⟨hacyclic, ⟨paths, hsorted, (hmem _).2 (by decide), fun h => ?_, (hmem _).2 (by decide), hlength⟩, by decide,
    (hany _).1 (by decide)⟩
  exact absurd ((hmem _).1 h) (by decide)

end Arena

end LuaInfer
