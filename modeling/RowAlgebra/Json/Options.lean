import RowAlgebra.Capacity
import RowAlgebra.Json.Access
import RowAlgebra.Json.Writer

/-!
# Options of the writer

The style of a writer can be asked for by an object of options, each of which may be missing:
`indent` (a text or a number of spaces), `separators` (two texts), `sort_keys`, `ensure_ascii` and
`allow_nan`. Options that make no sense are refused when they are needed.
-/

namespace RowAlgebra.Json

namespace Style

/-- The separators that are asked for, which need not be texts but have to be two. -/
def separators? (options : Value) : Except Error (Option (Value × Value)) := do
  match ← (options.given? "separators").mapM Value.elements with
  | none => return none
  | some [item, label] => return some (item, label)
  | some _ => throw (.fault .value)

def indent? (options : Value) : Except Error (Option Text) := do
  match options.given? "indent" with
  | none | some .null => return none
  | some (.text s) => return some s
  | some v => return some (← Capacity.spaces (← v.asInt))

/-- The style for a text, which needs neither indentation nor separators. -/
def ofSwitches (options : Value) : Style :=
  { plain with
    sortLabels := options.flagOr "sort_keys" false
    asciiOnly := options.flagOr "ensure_ascii" true
    allowSpecial := options.flagOr "allow_nan" true }

/-- The style that the options ask for, with the given separators. -/
def ofOptions (options : Value) (separators : Option (Value × Value)) : Except Error Style := do
  let base := (← indent? options).elim plain indented
  let style : Style := { ofSwitches options with
    indent := base.indent, itemSeparator := base.itemSeparator, detour := base.detour }
  match separators with
  | none => return style
  | some (item, label) => return { style with
      itemSeparator := item.asText.toOption, labelSeparator := label.asText.toOption }

end Style

/-- Whether a style without indentation lacks a separator. -/
def Style.isIncomplete (style : Style) : Bool :=
  style.indent.isNone && (style.itemSeparator.isNone || style.labelSeparator.isNone)

/-- The text of a datum in the style that the options ask for. Text for a file (`isForFile`) is
written piece by piece, so that whatever is not needed may be missing. Otherwise the style has to be
complete if there is no indentation, unless the datum was a text from the start (`isText`). -/
def Datum.writeWith (options : Value) (isForFile isText : Bool) (d : Datum) :
    Except Error Text := do
  let separators ← Style.separators? options
  if isText && !isForFile then d.write (Style.ofSwitches options) nestingLimit
  else
    let style ← Style.ofOptions options separators
    if !isForFile && style.isIncomplete then throw (.fault .type)
    d.write (if isForFile then style.piecewise else style) nestingLimit

end RowAlgebra.Json
