import Ebml.Element

/-!
# Visitors

A visitor is shown elements one after the other. It may fail on one, and it may be done, which means
that it wants no more. A composite shows each element to several visitors in turn: those that are
done are left out, and the first failure keeps the element from the visitors after it.
-/

namespace Ebml

/-- Operations of a visitor on its state. -/
structure Visitor (ν ε : Type) where
  /-- See an element. A visitor that fails has a state too. -/
  visit : Element → ν → Except ε Unit × ν
  /-- Whether it wants no more elements. -/
  isDone : ν → Bool

namespace Visitor

variable {ν ε : Type}

/-- Show an element to every visitor that is not done, up to the first that fails. -/
def visitEach (e : Element) :
    List (Visitor ν ε × ν) → Except ε Unit × List (Visitor ν ε × ν)
  | [] => (.ok (), [])
  | (v, state) :: rest =>
    if v.isDone state then
      let after := visitEach e rest
      (after.1, (v, state) :: after.2)
    else
      match v.visit e state with
      | (.error err, state') => (.error err, (v, state') :: rest)
      | (.ok (), state') =>
        let after := visitEach e rest
        (after.1, (v, state') :: after.2)

/-- Several visitors as one, done when they all are. -/
def composite : Visitor (List (Visitor ν ε × ν)) ε where
  visit := visitEach
  isDone children := children.all fun (v, state) => v.isDone state

end Visitor

end Ebml
