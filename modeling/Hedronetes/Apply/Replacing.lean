import Hedronetes.Apply.Pruning
import Hedronetes.Apply.Removal
import Hedronetes.Apply.Setting

/-!
# Replacing the value at a path

An object with another value at one of its paths. Removals, pruning and writes act
on the value and on what is around it separately, as long as the path keeps leading
there: no list item on the way takes its name from the value.
-/

namespace Hedronetes.Apply

open FirstMatch Fallible

/-- The object with the value at the path, if the path leads anywhere. -/
def replace : Path → Json → Json → Json
  | [], v, _ => v
  | .field name :: c, v, .object fields => .object (modifyKey name (replace c v) fields)
  | .keyed key value :: c, v, .array items =>
    .array (updateFirst (fun item => item.strAt key = some value) (replace c v) items)
  | _, _, j => j

example (v w : Json) : replace [.field "a"] v (.object [("a", w)]) = .object [("a", v)] := by
  simp [replace, modifyKey, updateFirst]

variable {c x d : Path} {j v w : Json}

end Hedronetes.Apply
