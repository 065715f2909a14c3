import RowAlgebra.Proofs.Json.Numerals
import RowAlgebra.Proofs.Json.Proper
import RowAlgebra.Proofs.Json.Strings

/-!
# A value is read as it was written

`Value.chars` is a value on one line. It is read as that value if it is not nested too deeply and
`Value.IsPortable`: integers are not too long, doubles and texts come back on their own, and no object
names a field twice (`parse_chars`). The three readers are followed together, along the value and its
items and fields: each of them reads what it is meant to read and leaves the rest, whatever that is,
as long as it `Closes` the value (`readValue_chars`).
-/

namespace RowAlgebra.Json

namespace Value

mutual

/-- A value on one line, with a space behind each separator. -/
def chars : Value → List Char
  | null => "null".toList
  | bool true => "true".toList
  | bool false => "false".toList
  | int n => (toString n).toList
  | float x => (FloatLayout.json.text x).toList
  | text s => (stringText true s).chars
  | list items => '[' :: ([',', ' '].intercalate (itemChars items) ++ [']'])
  | object fields => '\x7b' :: ([',', ' '].intercalate (fieldChars fields) ++ ['\x7d'])

def itemChars : List Value → List (List Char)
  | [] => []
  | item :: items => chars item :: itemChars items

def fieldChars : List (Text × Value) → List (List Char)
  | [] => []
  | (name, value) :: rest =>
    ((stringText true name).chars ++ ':' :: ' ' :: chars value) :: fieldChars rest

end

mutual

/-- How many lists and objects of a value are open at once. -/
def height : Value → Nat
  | list items => heightOfItems items + 1
  | object fields => heightOfFields fields + 1
  | _ => 0

def heightOfItems : List Value → Nat
  | [] => 0
  | item :: items => max (height item) (heightOfItems items)

def heightOfFields : List (Text × Value) → Nat
  | [] => 0
  | (_, value) :: rest => max (height value) (heightOfFields rest)

end

mutual

/-- Whether the atoms of a value are read as they are written, and no object names a field twice. -/
def IsPortable : Value → Prop
  | int n => Decimal.isLong n = false
  | float x => ReadsBack x
  | text s => s.NoPairs
  | list items => ArePortable items
  | object fields => (fields.map Prod.fst).Nodup ∧ HavePortable fields
  | _ => True

def ArePortable : List Value → Prop
  | [] => True
  | item :: items => IsPortable item ∧ ArePortable items

def HavePortable : List (Text × Value) → Prop
  | [] => True
  | (name, value) :: rest => name.NoPairs ∧ IsPortable value ∧ HavePortable rest

end

theorem arePortable_iff {items : List Value} :
    ArePortable items ↔ ∀ item ∈ items, item.IsPortable := by
  induction items with
  | nil => simp [ArePortable]
  | cons item items ih => rw [ArePortable, ih, List.forall_mem_cons]

theorem setField_of_not_mem {name : Text} {fields : List (Text × Value)}
    (h : name ∉ fields.map Prod.fst) (v : Value) :
    setField name v fields = fields ++ [(name, v)] := by
  induction fields with
  | nil => rfl
  | cons field fields ih =>
    rw [List.map_cons, List.mem_cons, not_or] at h
    rw [setField, if_neg (Ne.symm h.1), ih h.2, List.cons_append]

end Value

open Value

/-! ## Where a value starts -/

/-- Whether some characters begin with none that is skipped or that closes a list or an object. -/
def Starts (cs : List Char) : Prop :=
  ∃ c tail, cs = c :: tail ∧ c ∉ [' ', '\t', '\n', '\r', ']', '\x7d']

theorem Starts.append {cs : List Char} (h : Starts cs) (rest : List Char) : Starts (cs ++ rest) := by
  obtain ⟨c, tail, rfl, hc⟩ := h
  exact ⟨c, tail ++ rest, rfl, hc⟩

theorem Starts.intercalate {piece : List Char} (h : Starts piece) (separator : List Char)
    (pieces : List (List Char)) : Starts (separator.intercalate (piece :: pieces)) := by
  cases pieces with
  | nil => rwa [List.intercalate_singleton]
  | cons second pieces =>
    rw [List.intercalate_cons_cons, List.append_assoc]
    exact h.append _

theorem Starts.skipBlanks {cs : List Char} (h : Starts cs) : skipBlanks cs = cs := by
  obtain ⟨c, tail, rfl, hc⟩ := h
  rw [Json.skipBlanks, if_neg]
  simp only [List.mem_cons, not_or] at hc
  tauto

theorem Closes.skipBlanks {rest : List Char} (h : Closes rest) : skipBlanks rest = rest := by
  rcases h.cases with rfl | ⟨tail, rfl⟩ | ⟨tail, rfl⟩ | ⟨tail, rfl⟩ <;> rfl

/-- What is read as a word or a number does not begin like another value, and is not skipped. -/
theorem exists_head_of_readAtom {cs : List Char} {read : Value × List Char}
    (h : readAtom cs = .ok read) : ∃ c tail, cs = c :: tail ∧
      c ∉ ['"', '[', '\x7b', ' ', '\t', '\n', '\r', ']', '\x7d'] := by
  cases cs with
  | nil => cases h
  | cons c tail =>
    refine ⟨c, tail, rfl, fun hc => ?_⟩
    simp only [List.mem_cons, List.not_mem_nil, or_false] at hc
    rcases hc with rfl | rfl | rfl | rfl | rfl | rfl | rfl | rfl | rfl <;> cases h

theorem readValue_of_readAtom {cs : List Char} {read : Value × List Char}
    (h : readAtom cs = .ok read) (fuel room : Nat) : readValue (fuel + 1) room cs = .ok read := by
  obtain ⟨c, tail, rfl, hc⟩ := exists_head_of_readAtom h
  simp only [List.mem_cons, not_or] at hc
  rw [readValue]
  · exact h
  all_goals rintro _ ⟨⟩; simp at hc

theorem readValue_text {s : Text} (h : s.NoPairs) (fuel room : Nat) (rest : List Char) :
    readValue (fuel + 1) room ((stringText true s).chars ++ rest) = .ok (.text s, rest) := by
  obtain ⟨inner, hchars, hread⟩ := readString_literal h rest
  rw [hchars, List.cons_append, readValue, hread]
  rfl

theorem starts_text (s : Text) : Starts (stringText true s).chars :=
  ⟨'"', _, rfl, by decide⟩

theorem Value.IsPortable.starts {v : Value} (h : v.IsPortable) : Starts v.chars := by
  have hatom : ∀ {cs : List Char} {read : Value × List Char}, readAtom cs = .ok read →
      Starts cs := by
    intro cs read hread
    obtain ⟨c, tail, rfl, hc⟩ := exists_head_of_readAtom hread
    exact ⟨c, tail, rfl, fun hmem => hc (by simp_all)⟩
  cases v with
  | null => exact ⟨'n', _, rfl, by decide⟩
  | bool b => cases b <;> exact ⟨_, _, rfl, by decide⟩
  | int n =>
    have hread := closes_nil.readAtom_int h
    rw [List.append_nil] at hread
    exact hatom hread
  | float x => exact hatom h
  | text s => exact starts_text s
  | list items => exact ⟨'[', _, rfl, by decide⟩
  | object fields => exact ⟨'\x7b', _, rfl, by decide⟩

section

variable {inner rest : List Char} {fuel room : Nat}

theorem readValue_list {items : List Value} (hstarts : Starts inner)
    (h : readItems fuel room (inner ++ ']' :: rest) = .ok (items, rest)) :
    readValue (fuel + 1) (room + 1) ('[' :: (inner ++ [']']) ++ rest) =
      .ok (.list items, rest) := by
  have hskip := (hstarts.append (']' :: rest)).skipBlanks
  obtain ⟨c, tail, rfl, hc⟩ := hstarts
  simp only [List.mem_cons, not_or] at hc
  have hchars : '[' :: (c :: tail ++ [']']) ++ rest = '[' :: (c :: (tail ++ ']' :: rest)) := by simp
  rw [hchars, readValue]
  simp only [List.cons_append] at hskip h
  rw [hskip]
  split
  · next heq =>
    cases heq
    simp at hc
  · rw [h]
    rfl

theorem readValue_object {fields : List (Text × Value)} (hstarts : Starts inner)
    (h : readFields fuel room [] (inner ++ '\x7d' :: rest) = .ok (fields, rest)) :
    readValue (fuel + 1) (room + 1) ('\x7b' :: (inner ++ ['\x7d']) ++ rest) =
      .ok (.object fields, rest) := by
  have hskip := (hstarts.append ('\x7d' :: rest)).skipBlanks
  obtain ⟨c, tail, rfl, hc⟩ := hstarts
  simp only [List.mem_cons, not_or] at hc
  have hchars : '\x7b' :: (c :: tail ++ ['\x7d']) ++ rest =
      '\x7b' :: (c :: (tail ++ '\x7d' :: rest)) := by simp
  rw [hchars, readValue]
  simp only [List.cons_append] at hskip h
  rw [hskip]
  split
  · next heq =>
    cases heq
    simp at hc
  · rw [h]
    rfl

theorem readItems_last {cs : List Char} {item : Value}
    (h : readValue fuel room cs = .ok (item, ']' :: rest)) :
    readItems (fuel + 1) room cs = .ok ([item], rest) := by
  rw [readItems, h]
  rfl

theorem readItems_more {cs more : List Char} {item : Value} {items : List Value}
    (h : readValue fuel room cs = .ok (item, ',' :: ' ' :: more)) (hstarts : Starts more)
    (hmore : readItems fuel room more = .ok (items, rest)) :
    readItems (fuel + 1) room cs = .ok (item :: items, rest) := by
  have hcomma : skipBlanks (',' :: ' ' :: more) = ',' :: ' ' :: more := rfl
  have hskip : skipBlanks (' ' :: more) = more := hstarts.skipBlanks
  rw [readItems, h]
  simp only [bind, Except.bind, hcomma, hskip, hmore]
  rfl

variable {name : Text} (hname : name.NoPairs) {cs : List Char} {v : Value} (hstarts : Starts cs)
  {seen : List (Text × Value)} (hnew : name ∉ seen.map Prod.fst)
include hname hstarts hnew

theorem readFields_last (h : readValue fuel room cs = .ok (v, '\x7d' :: rest)) :
    readFields (fuel + 1) room seen ((stringText true name).chars ++ ':' :: ' ' :: cs) =
      .ok (seen ++ [(name, v)], rest) := by
  obtain ⟨inner, hchars, hread⟩ := readString_literal hname (':' :: ' ' :: cs)
  have hcolon : skipBlanks (':' :: ' ' :: cs) = ':' :: ' ' :: cs := rfl
  have hskip : skipBlanks (' ' :: cs) = cs := hstarts.skipBlanks
  have hbrace : skipBlanks ('\x7d' :: rest) = '\x7d' :: rest := rfl
  rw [hchars, List.cons_append, readFields, hread]
  simp only [bind, Except.bind, hcolon, hskip, h, hbrace, setField_of_not_mem hnew]
  rfl

theorem readFields_more {more : List Char} {fields : List (Text × Value)}
    (h : readValue fuel room cs = .ok (v, ',' :: ' ' :: more)) (hmorestarts : Starts more)
    (hmore : readFields fuel room (seen ++ [(name, v)]) more = .ok (fields, rest)) :
    readFields (fuel + 1) room seen ((stringText true name).chars ++ ':' :: ' ' :: cs) =
      .ok (fields, rest) := by
  obtain ⟨inner, hchars, hread⟩ := readString_literal hname (':' :: ' ' :: cs)
  have hcolon : skipBlanks (':' :: ' ' :: cs) = ':' :: ' ' :: cs := rfl
  have hskip : skipBlanks (' ' :: cs) = cs := hstarts.skipBlanks
  have hcomma : skipBlanks (',' :: ' ' :: more) = ',' :: ' ' :: more := rfl
  have hmoreskip : skipBlanks (' ' :: more) = more := hmorestarts.skipBlanks
  rw [hchars, List.cons_append, readFields, hread]
  simp only [bind, Except.bind, hcolon, hskip, h, hcomma, hmoreskip, setField_of_not_mem hnew, hmore]

end

/-! ## Values, items and fields -/

theorem length_pos {v : Value} (h : v.IsPortable) : 0 < v.chars.length := by
  obtain ⟨c, tail, hchars, -⟩ := h.starts
  rw [hchars]
  exact Nat.zero_lt_succ _

theorem starts_items {item : Value} (h : item.IsPortable) (items : List Value) :
    Starts ([',', ' '].intercalate (itemChars (item :: items))) :=
  h.starts.intercalate _ _

theorem starts_fields (name : Text) (v : Value) (fields : List (Text × Value)) :
    Starts ([',', ' '].intercalate (fieldChars ((name, v) :: fields))) :=
  ((starts_text name).append _).intercalate _ _

theorem not_mem_seen {name : Text} {v : Value} {seen fields : List (Text × Value)}
    (h : ((seen ++ (name, v) :: fields).map Prod.fst).Nodup) : name ∉ seen.map Prod.fst := by
  rw [List.map_append, List.nodup_append] at h
  exact fun hmem => h.2.2 name hmem name List.mem_cons_self rfl

mutual

/-- A value is read as it was written, up to what closes it. -/
theorem readValue_chars : ∀ (v : Value) {fuel room : Nat} {rest : List Char}, v.IsPortable →
    v.height ≤ room → 2 * v.chars.length ≤ fuel + 1 → Closes rest →
      readValue (fuel + 1) room (v.chars ++ rest) = .ok (v, rest)
  | .null, _, _, _, _, _, _, _ => readValue_of_readAtom rfl _ _
  | .bool true, _, _, _, _, _, _, _ => readValue_of_readAtom rfl _ _
  | .bool false, _, _, _, _, _, _, _ => readValue_of_readAtom rfl _ _
  | .int _, _, _, _, h, _, _, hrest => readValue_of_readAtom (hrest.readAtom_int h) _ _
  | .float _, _, _, _, h, _, _, hrest => readValue_of_readAtom (hrest.readAtom_append h) _ _
  | .text _, _, _, _, h, _, _, _ => readValue_text h _ _ _
  | .list [], _, _ + 1, _, _, _, _, _ => rfl
  | .list (item :: items), fuel, room + 1, rest, h, hroom, hfuel, _ => by
    rw [chars, List.length_cons, List.length_append, List.length_singleton] at hfuel
    obtain ⟨fuel, rfl⟩ : ∃ k, fuel = k + 1 := ⟨fuel - 1, by omega⟩
    exact readValue_list (starts_items h.1 items)
      (readItems_chars (item :: items) nofun h (Nat.le_of_succ_le_succ hroom) (by omega))
  | .object [], _, _ + 1, _, _, _, _, _ => rfl
  | .object ((name, v) :: fields), fuel, room + 1, rest, h, hroom, hfuel, _ => by
    rw [chars, List.length_cons, List.length_append, List.length_singleton] at hfuel
    obtain ⟨fuel, rfl⟩ : ∃ k, fuel = k + 1 := ⟨fuel - 1, by omega⟩
    exact readValue_object (starts_fields name v fields)
      (readFields_chars ((name, v) :: fields) nofun (List.nil_append _ ▸ h.1) h.2
        (Nat.le_of_succ_le_succ hroom) (by omega))

theorem readItems_chars : ∀ (items : List Value) {fuel room : Nat} {rest : List Char},
    items ≠ [] → ArePortable items → heightOfItems items ≤ room →
      2 * ([',', ' '].intercalate (itemChars items)).length ≤ fuel →
        readItems (fuel + 1) room ([',', ' '].intercalate (itemChars items) ++ ']' :: rest) =
          .ok (items, rest)
  | [item], fuel, room, rest, _, h, hroom, hfuel => by
    rw [itemChars, itemChars, List.intercalate_singleton] at hfuel ⊢
    have hpos := length_pos h.1
    obtain ⟨fuel, rfl⟩ : ∃ k, fuel = k + 1 := ⟨fuel - 1, by omega⟩
    exact readItems_last (readValue_chars item h.1 (Nat.le_trans (Nat.le_max_left _ _) hroom) hfuel
      (closes_bracket rest))
  | item :: second :: items, fuel, room, rest, _, h, hroom, hfuel => by
    have hpos := length_pos h.1
    have hinner : [',', ' '].intercalate (itemChars (item :: second :: items)) =
        item.chars ++ ',' :: ' ' :: [',', ' '].intercalate (itemChars (second :: items)) := by
      simp [itemChars, List.intercalate_cons_cons]
    rw [hinner] at hfuel ⊢
    simp only [List.length_append, List.length_cons] at hfuel
    obtain ⟨fuel, rfl⟩ : ∃ k, fuel = k + 1 := ⟨fuel - 1, by omega⟩
    rw [List.append_assoc]
    exact readItems_more
      (readValue_chars item h.1 (Nat.le_trans (Nat.le_max_left _ _) hroom) (by omega)
        (closes_comma _))
      ((starts_items h.2.1 items).append _)
      (readItems_chars (second :: items) nofun h.2 (Nat.le_trans (Nat.le_max_right _ _) hroom)
        (by omega))

theorem readFields_chars : ∀ (fields : List (Text × Value)) {fuel room : Nat} {rest : List Char}
    {seen : List (Text × Value)}, fields ≠ [] → ((seen ++ fields).map Prod.fst).Nodup →
      HavePortable fields → heightOfFields fields ≤ room →
        2 * ([',', ' '].intercalate (fieldChars fields)).length ≤ fuel →
          readFields (fuel + 1) room seen
              ([',', ' '].intercalate (fieldChars fields) ++ '\x7d' :: rest) =
            .ok (seen ++ fields, rest)
  | [(name, v)], fuel, room, rest, seen, _, hnames, h, hroom, hfuel => by
    rw [fieldChars, fieldChars, List.intercalate_singleton] at hfuel ⊢
    simp only [List.length_append, List.length_cons] at hfuel
    have hpos := length_pos h.2.1
    obtain ⟨fuel, rfl⟩ : ∃ k, fuel = k + 1 := ⟨fuel - 1, by omega⟩
    rw [List.append_assoc]
    exact readFields_last h.1 (h.2.1.starts.append _) (not_mem_seen hnames)
      (readValue_chars v h.2.1 (Nat.le_trans (Nat.le_max_left _ _) hroom) (by omega)
        (closes_brace _))
  | (name, v) :: (second, w) :: fields, fuel, room, rest, seen, _, hnames, h, hroom, hfuel => by
    have hinner : [',', ' '].intercalate (fieldChars ((name, v) :: (second, w) :: fields)) =
        (stringText true name).chars ++ ':' :: ' ' :: (v.chars ++
          ',' :: ' ' :: [',', ' '].intercalate (fieldChars ((second, w) :: fields))) := by
      simp [fieldChars, List.intercalate_cons_cons]
    rw [hinner] at hfuel ⊢
    simp only [List.length_append, List.length_cons] at hfuel
    have hpos := length_pos h.2.1
    obtain ⟨fuel, rfl⟩ : ∃ k, fuel = k + 1 := ⟨fuel - 1, by omega⟩
    have hnames' : ((seen ++ [(name, v)] ++ (second, w) :: fields).map Prod.fst).Nodup := by
      rwa [List.append_assoc]
    have hmore : readFields (fuel + 1) room (seen ++ [(name, v)])
        ([',', ' '].intercalate (fieldChars ((second, w) :: fields)) ++ '\x7d' :: rest) = _ :=
      readFields_chars ((second, w) :: fields) nofun hnames' h.2.2
        (Nat.le_trans (Nat.le_max_right _ _) hroom) (by omega)
    rw [List.append_assoc] at hmore
    rw [List.append_assoc, List.cons_append, List.cons_append, List.append_assoc]
    exact readFields_more h.1 (h.2.1.starts.append _) (not_mem_seen hnames)
      (readValue_chars v h.2.1 (Nat.le_trans (Nat.le_max_left _ _) hroom) (by omega)
        (closes_comma _))
      ((starts_fields second w fields).append _) hmore

end

/-- **A value is read as it was written**, unless it is nested too deeply. -/
theorem parse_chars {v : Value} (h : v.IsPortable) (hheight : v.height ≤ nestingLimit) :
    parse (String.ofList v.chars) = .ok v := by
  have hread := readValue_chars v h hheight
    (by omega : 2 * v.chars.length ≤ 2 * v.chars.length + 1 + 1) closes_nil
  rw [List.append_nil] at hread
  rw [parse, String.toList_ofList, h.starts.skipBlanks]
  dsimp only
  rw [hread]
  rfl

end RowAlgebra.Json
