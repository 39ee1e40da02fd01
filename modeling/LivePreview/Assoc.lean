/-! Association lists: values under keys, in the order in which the keys came. -/
namespace LivePreview.Assoc
variable {K V : Type} [BEq K]

/-- The list with `v` under `k`, in the place of the old value or at the end. -/
def insert (k : K) (v : V) : List (K × V) → List (K × V)
  | [] => [(k, v)]
  | (j, w) :: r => if j == k then (k, v) :: r else (j, w) :: insert k v r

/-- The list without what is under `k`. -/
def erase (k : K) (l : List (K × V)) : List (K × V) := l.filter fun e => !(e.1 == k)

end LivePreview.Assoc
