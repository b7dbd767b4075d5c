import MarkupEditor.Proofs.Document.Assembly
import MarkupEditor.Proofs.Store.Paths

namespace MarkupEditor

namespace Store

variable {s : Store Record} (wooded : Wooded s.get?)

include wooded

theorem root_of_alone {top : String} (alone : ∀ id r, s.get? id = some r → r.parent = none → id = top) {id : String} {r : Record}
    (found : s.get? id = some r) : s.root id = top := by
  have anchored := wooded.anchored id r found
  clear found
  induction anchored with
  | root found orphan => exact (root_orphan found orphan).trans (alone _ _ found orphan)
  | under found named _ ih => exact (root_child wooded ⟨_, found, named⟩).trans ih

end Store

-- Contents whose entries come from those of other contents and stand under one root.
structure Traced (top : String) (first now : String → Option Record) : Prop where
  root : ∃ r, now top = some r ∧ r.parent = none
  alone : ∀ id r, now id = some r → r.parent = none → id = top
  origins : ∀ id r, now id = some r → ∃ r₀, first id = some r₀ ∧ r.origin = r₀.origin

def Act.spares (id : String) : Act → Bool
  | delete gone => gone ≠ id
  | _ => true

namespace Document

variable {d : Document} {top : String} {first : String → Option Record}

end Document

end MarkupEditor
