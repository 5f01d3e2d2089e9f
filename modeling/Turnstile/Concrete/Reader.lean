/-
How concrete trees are obtained.

A reader gives the tree of a text, or says that there is none or that the text nests too deep for it. Trees are made into
typed programs by recursion, so there is a depth at which this gives up, too.
-/
import Turnstile.Concrete.Tree
import Turnstile.Source.Text

namespace Turnstile

/-- why a text has no concrete tree -/
inductive ReadFault where
  | unreadable
  | tooDeep
  deriving DecidableEq, Repr

/-- how concrete trees are obtained -/
structure TreeReader where
  tree : SourceText → Except ReadFault Tree
  /-- the deepest nesting that a typed program is made of -/
  depth : Nat

instance : CoeFun TreeReader fun _ => SourceText → Except ReadFault Tree := ⟨TreeReader.tree⟩

end Turnstile
