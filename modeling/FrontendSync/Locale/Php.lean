import FrontendSync.Fault
import FrontendSync.Locale.Tree
import FrontendSync.Php.Declaration.File

/-!
# PHP locale files

The data that a PHP file returns: the value of the expression after its first `return`, in the
scope at the end of the file.
-/

namespace FrontendSync.Locale

open Php

/-- The value of the expression after the first `return`. -/
def returned (ctx : Context) (ts : List Token) : Except EvalError Value :=
  match ts.dropWhile (!Token.isKeyword "return" ·) with
  | [] => .error .unexpectedEnd
  | _ :: ts => (Expression.read ctx ts).answer

/-- The value a source returns; `lookup` knows the values of the cases of all enums. -/
def returnedBy (lookup : String → String → Option Value) (source : String) :
    Except EvalError Value :=
  let ts := tokens source
  returned ⟨(SourceFile.ofTokens ts).scope, none, lookup⟩ ts

/-- The members of the array a source returns. -/
def ofPhp (lookup : String → String → Option Value) (source : String) :
    Except LocaleFault Members :=
  match returnedBy lookup source with
  | .error e => .error (.expression e)
  | .ok v =>
    match Tree.ofValue v with
    | .map ms => .ok ms
    | .list ts => .ok (Tree.numbered 0 ts)
    | _ => .error (.notArray v.kindName)

end FrontendSync.Locale
