/-!
Grouping by keys.

Groups stand in the order in which their keys first appear, and keep the order of their members.
-/

namespace GraphQL

variable {α : Type}

/-- Puts a member into the group of its key, which is made if there is none. -/
def addToGroup (key : String) (a : α) : List (String × List α) → List (String × List α)
  | [] => [(key, [a])]
  | (k, as) :: groups =>
    if k == key then (k, as ++ [a]) :: groups else (k, as) :: addToGroup key a groups

def groupByKey (key : α → String) (as : List α) : List (String × List α) :=
  as.foldl (fun groups a => addToGroup (key a) a groups) []

end GraphQL
