import FrontendSync.Module.Literal
import FrontendSync.Module.Style
import FrontendSync.Translator.Record

/-!
# Translator modules

The text of a translator helper for one of the supported runtimes.
-/

namespace FrontendSync

inductive Runtime where
  | i18next
  | vueI18n
  | reactI18next
deriving DecidableEq, Repr

namespace Runtime

def named? (name : String) : Option Runtime :=
  match Text.choice name with
  | "i18next" => some i18next
  | "vue-i18n" | "vue" => some vueI18n
  | "react-i18next" | "react" => some reactI18next
  | _ => none

def name : Runtime → String
  | i18next => "i18next"
  | vueI18n => "vue-i18n"
  | reactI18next => "react-i18next"

def importLine : Runtime → String
  | i18next => "import i18n from 'i18next';"
  | vueI18n => "import \x7b useI18n \x7d from 'vue-i18n';"
  | reactI18next => "import \x7b useTranslation \x7d from 'react-i18next';"

/-- The statement that binds `t` inside the helper. -/
def binding : Runtime → String
  | i18next => "const t = i18n.t.bind(i18n);"
  | vueI18n => "const \x7b t \x7d = useI18n();"
  | reactI18next => "const \x7b t \x7d = useTranslation();"

end Runtime

namespace Module.TranslatorModule

/-- Text inside a template literal: nothing in it ends the literal or starts a substitution. -/
def escapeTemplate : List Char → List Char
  | [] => []
  | '\\' :: s => '\\' :: '\\' :: escapeTemplate s
  | '`' :: s => '\\' :: '`' :: escapeTemplate s
  | '$' :: '{' :: s => '\\' :: '$' :: '{' :: escapeTemplate s
  | c :: s => c :: escapeTemplate s

/-- The template literal of the key of a value. -/
def keyTemplate (key : String) : String :=
  "`" ++ String.ofList (escapeTemplate key.toList) ++ ".$\x7bvalue\x7d`"

def lines (style : Style) (runtime : Runtime) (helper : String) (t : Translator) : List String :=
  let cast := if style.isTs then " as Record<" ++ t.enumName ++ ", string>" else ""
  let comma := if style.trailingComma then "," else ""
  [runtime.importLine,
    "import \x7b useTranslator \x7d from " ++ quote helper ++ ";",
    "import \x7b " ++ t.enumName ++ " \x7d from " ++ quote t.specifier ++ ";",
    "",
    "export function " ++ t.name ++ "() \x7b",
    indent ++ runtime.binding,
    indent ++ "const keys = Object.fromEntries(",
    indent ++ indent ++ "Object.values(" ++ t.enumName ++ ").map((value) => [value, "
      ++ keyTemplate t.key ++ "])" ++ comma,
    indent ++ ")" ++ cast ++ ";",
    "",
    indent ++ "return useTranslator(keys, t);",
    "\x7d"]

def text (style : Style) (runtime : Runtime) (helper : String) (t : Translator) : String :=
  Text.unlines (lines style runtime helper t)

end Module.TranslatorModule

end FrontendSync
