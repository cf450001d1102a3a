import LuaInfer.Decl.Arena
/-!
# Walks below a declaration

A walk visits a declaration and everything below it, depth first, and stops early once a visitor says
so. Handles without a declaration are passed over.
-/

namespace LuaInfer.Arena

/-- Walks at most `fuel` levels below `root`. `seen` holds what was visited, the last first; the flag
tells whether the walk may go on. -/
def walkFrom (a : Arena) (goOn : DeclId → DeclKind → Bool) :
    Nat → DeclId → List DeclId → List DeclId × Bool
  | 0, _, seen => (seen, true)
  | fuel + 1, root, seen =>
    match a.kind? root with
    | none => (seen, true)
    | some kind =>
      if goOn root kind then
        kind.children.foldl
          (fun (seen, more) child => if more then a.walkFrom goOn fuel child seen else (seen, more))
          (root :: seen, true)
      else (root :: seen, false)

/-- The declarations visited, in order, and whether the visitor never said to stop. Where no
declaration is below itself, no path is longer than the arena. -/
def walk (a : Arena) (goOn : DeclId → DeclKind → Bool) (root : DeclId) : List DeclId × Bool :=
  let (seen, more) := a.walkFrom goOn (a.size + 1) root []
  (seen.reverse, more)

/-- Whether something at or below `root` is of the kind asked for. -/
def anyBelow (a : Arena) (p : DeclKind → Bool) (root : DeclId) : Bool :=
  !(a.walk (fun _ kind => !p kind) root).2

end LuaInfer.Arena
