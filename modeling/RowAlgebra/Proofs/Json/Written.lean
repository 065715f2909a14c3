import RowAlgebra.Proofs.Json.ReadBack

/-!
# What the writer makes of a value

Where everything is written on one line, a datum that stands for a value (`Datum.value?`) is written as
that value, if enough calls of the writer may be open (`Datum.write_ends`): one for each list and each
record, and some more for each thing that is converted (`Datum.frames`). Otherwise the writer runs out
of calls. So whatever has been written of a portable value is read as that value
(`Datum.parse_of_write`).
-/

namespace RowAlgebra.Json

namespace Datum

mutual

/-- The value that a datum stands for, if it has one. -/
def value? : Datum → Option Value
  | null => some .null
  | bool b => some (.bool b)
  | int n => some (.int n)
  | float x => some (.float x)
  | text s => some (.text s)
  | list items => (values? items).map .list
  | record fields => (fields? fields).map .object
  | converted d => value? d
  | foreign => none

def values? : List Datum → Option (List Value)
  | [] => some []
  | item :: items => do return (← value? item) :: (← values? items)

def fields? : List (Label × Datum) → Option (List (Text × Value))
  | [] => some []
  | (label, d) :: rest => do return (← label.text?, ← value? d) :: (← fields? rest)

end

mutual

/-- How many calls of the writer are open at once for a datum. -/
def frames (detour : Nat) : Datum → Nat
  | list items => framesOfItems detour items + 1
  | record fields => framesOfFields detour fields + 1
  | converted d => frames detour d + detour
  | _ => 0

def framesOfItems (detour : Nat) : List Datum → Nat
  | [] => 0
  | item :: items => max (frames detour item) (framesOfItems detour items)

def framesOfFields (detour : Nat) : List (Label × Datum) → Nat
  | [] => 0
  | (_, d) :: rest => max (frames detour d) (framesOfFields detour rest)

end

end Datum

/-! ## One line -/

theorem Style.enclose_oneLine (detour depth : Nat) (opening closing : Text) (items : List Text) :
    ∃ t, (Style.oneLine detour).enclose depth opening closing items = .ok t ∧
      t.chars = opening.chars ++ [',', ' '].intercalate (items.map Text.chars) ++ closing.chars := by
  rcases items with _ | ⟨first, _ | ⟨second, rest⟩⟩
  · exact ⟨_, rfl, by simp⟩
  · exact ⟨_, rfl, by simp⟩
  · refine ⟨opening ++ ("" : String) ++ .intercalate ((", " : String) ++ ("" : String))
      (first :: second :: rest) ++ ("" : String) ++ closing, rfl, ?_⟩
    simp [Text.chars_intercalate]

theorem Datum.arrange_oneLine {β : Type} (detour : Nat) (fields : List (Label × β)) :
    arrange (.oneLine detour) fields = .ok fields :=
  if_pos rfl

variable {detour : Nat}

/-- How the writer ends that needs a number of calls, has `room` for some, and is to write `Good`. -/
abbrev WritesIn {β : Type} (frames room : Nat) (x : Except Error β) (Good : β → Prop) : Prop :=
  Ends x (fun t => frames ≤ room ∧ Good t) fun e => e = .fault .recursion ∧ room < frames

theorem Label.eq_text_of_text? {label : Label} {name : Text} (h : label.text? = some name) :
    label = .text name := by
  cases label <;> cases h
  rfl

mutual

/-- A datum is written as the value that it stands for, if there are enough calls. -/
theorem Datum.writeAt_ends (depth : Nat) : ∀ (d : Datum) {v : Value} (room : Nat),
    d.value? = some v → v.IsPortable →
      WritesIn (d.frames detour) room (d.writeAt (.oneLine detour) room depth)
        fun t => t.chars = v.chars
  | .null, _, _, rfl, _ => ⟨Nat.zero_le _, rfl⟩
  | .bool true, _, _, rfl, _ => ⟨Nat.zero_le _, rfl⟩
  | .bool false, _, _, rfl, _ => ⟨Nat.zero_le _, rfl⟩
  | .int n, _, _, rfl, h => by
    have htext : Decimal.intText n = .ok (toString n) :=
      if_neg (Bool.eq_false_iff.1 h)
    rw [writeAt, htext]
    exact ⟨Nat.zero_le _, Text.chars_ofString _⟩
  | .float x, _, _, rfl, _ => ⟨Nat.zero_le _, Text.chars_ofString _⟩
  | .text s, _, _, rfl, _ => ⟨Nat.zero_le _, rfl⟩
  | .list items, v, room, hv, h => by
    obtain ⟨vs, hvs, rfl⟩ := Option.map_eq_some_iff.1 hv
    cases room with
    | zero => exact ⟨rfl, Nat.zero_lt_succ _⟩
    | succ room =>
      refine ((writeItems_ends (depth + 1) items room hvs h).mapBad fun _ he =>
        ⟨he.1, Nat.succ_lt_succ he.2⟩).bind fun ts ⟨hframes, hts⟩ => ?_
      obtain ⟨t, ht, hchars⟩ := Style.enclose_oneLine detour depth "[" "]" ts
      rw [ht]
      dsimp only at hts
      rw [hts] at hchars
      exact ⟨Nat.succ_le_succ hframes, hchars⟩
  | .record fields, v, room, hv, h => by
    obtain ⟨gs, hgs, rfl⟩ := Option.map_eq_some_iff.1 hv
    cases room with
    | zero => exact ⟨rfl, Nat.zero_lt_succ _⟩
    | succ room =>
      rw [writeAt, arrange_oneLine]
      refine ((writeValues_ends (depth + 1) fields room hgs h.2).mapBad fun _ he =>
        ⟨he.1, Nat.succ_lt_succ he.2⟩).bind fun ts ⟨hframes, hts⟩ => ?_
      obtain ⟨t, ht, hchars⟩ := Style.enclose_oneLine detour depth "\x7b" "\x7d" ts
      rw [ht]
      dsimp only at hts
      rw [hts] at hchars
      exact ⟨Nat.succ_le_succ hframes, hchars⟩
  | .converted d, v, room, hv, h => by
    rw [writeAt, frames]
    split
    · next hroom =>
      exact ⟨rfl, Nat.lt_of_lt_of_le hroom (Nat.le_add_left _ _)⟩
    · next hroom =>
      have hroom : detour ≤ room := Nat.not_lt.1 hroom
      have hd := writeAt_ends depth d (room - detour) hv h
      exact (hd.imp fun t ht => ⟨by omega, ht.2⟩).mapBad fun e he => ⟨he.1, by omega⟩

theorem Datum.writeItems_ends (depth : Nat) : ∀ (items : List Datum) {vs : List Value} (room : Nat),
    values? items = some vs → Value.ArePortable vs →
      WritesIn (framesOfItems detour items) room (writeItems (.oneLine detour) room depth items)
        fun ts => ts.map Text.chars = Value.itemChars vs
  | [], _, _, rfl, _ => ⟨Nat.zero_le _, rfl⟩
  | item :: items, _, room, hall, h => by
    obtain ⟨v, hv, hsome⟩ := Option.bind_eq_some_iff.1 hall
    obtain ⟨vs, hvs, ⟨⟩⟩ := Option.bind_eq_some_iff.1 hsome
    refine ((writeAt_ends depth item room hv h.1).mapBad fun _ he =>
      ⟨he.1, Nat.lt_of_lt_of_le he.2 (Nat.le_max_left _ _)⟩).bind fun t ⟨hroom, ht⟩ => ?_
    refine ((writeItems_ends depth items room hvs h.2).mapBad fun _ he =>
      ⟨he.1, Nat.lt_of_lt_of_le he.2 (Nat.le_max_right _ _)⟩).bind fun ts ⟨hrest, hts⟩ => ?_
    exact ⟨Nat.max_le.2 ⟨hroom, hrest⟩, congrArg₂ List.cons ht hts⟩

theorem Datum.writeValues_ends (depth : Nat) : ∀ (fields : List (Label × Datum))
    {gs : List (Text × Value)} (room : Nat), fields? fields = some gs → Value.HavePortable gs →
      WritesIn (framesOfFields detour fields) room
        (labelled (.oneLine detour) (writeValues (.oneLine detour) room depth fields))
        fun ts => ts.map Text.chars = Value.fieldChars gs
  | [], _, _, rfl, _ => ⟨Nat.zero_le _, rfl⟩
  | (label, d) :: fields, _, room, hall, h => by
    obtain ⟨name, hname, hsome⟩ := Option.bind_eq_some_iff.1 hall
    obtain ⟨v, hv, hsome'⟩ := Option.bind_eq_some_iff.1 hsome
    obtain ⟨gs, hgs, ⟨⟩⟩ := Option.bind_eq_some_iff.1 hsome'
    obtain rfl := Label.eq_text_of_text? hname
    refine ((writeAt_ends depth d room hv h.2.1).mapBad fun _ he =>
      ⟨he.1, Nat.lt_of_lt_of_le he.2 (Nat.le_max_left _ _)⟩).bind fun t ⟨hroom, ht⟩ => ?_
    refine ((writeValues_ends depth fields room hgs h.2.2).mapBad fun _ he =>
      ⟨he.1, Nat.lt_of_lt_of_le he.2 (Nat.le_max_right _ _)⟩).bind fun ts ⟨hrest, hts⟩ => ?_
    refine ⟨Nat.max_le.2 ⟨hroom, hrest⟩, congrArg₂ List.cons ?_ hts⟩
    rw [Text.chars_append, Text.chars_append, ht, Text.chars_ofString, List.append_assoc]
    rfl

end

/-! ## Reading what was written -/

namespace Datum

mutual

/-- The writer has more open at once than the reader of what it writes. -/
theorem height_le_frames : ∀ (d : Datum) {v : Value}, d.value? = some v → v.height ≤ d.frames detour
  | .null, _, rfl => Nat.zero_le _
  | .bool _, _, rfl => Nat.zero_le _
  | .int _, _, rfl => Nat.zero_le _
  | .float _, _, rfl => Nat.zero_le _
  | .text _, _, rfl => Nat.zero_le _
  | .list items, _, h => by
    obtain ⟨vs, hvs, rfl⟩ := Option.map_eq_some_iff.1 h
    exact Nat.succ_le_succ (heightOfItems_le_frames items hvs)
  | .record fields, _, h => by
    obtain ⟨gs, hgs, rfl⟩ := Option.map_eq_some_iff.1 h
    exact Nat.succ_le_succ (heightOfFields_le_frames fields hgs)
  | .converted d, _, h => Nat.le_trans (height_le_frames d h) (Nat.le_add_right _ _)

theorem heightOfItems_le_frames : ∀ (items : List Datum) {vs : List Value},
    values? items = some vs → Value.heightOfItems vs ≤ framesOfItems detour items
  | [], _, rfl => Nat.zero_le _
  | item :: items, _, h => by
    obtain ⟨v, hv, hsome⟩ := Option.bind_eq_some_iff.1 h
    obtain ⟨vs, hvs, ⟨⟩⟩ := Option.bind_eq_some_iff.1 hsome
    exact Nat.max_le.2 ⟨Nat.le_trans (height_le_frames item hv) (Nat.le_max_left _ _),
      Nat.le_trans (heightOfItems_le_frames items hvs) (Nat.le_max_right _ _)⟩

theorem heightOfFields_le_frames : ∀ (fields : List (Label × Datum)) {gs : List (Text × Value)},
    fields? fields = some gs → Value.heightOfFields gs ≤ framesOfFields detour fields
  | [], _, rfl => Nat.zero_le _
  | (_, d) :: fields, _, h => by
    obtain ⟨_, _, hsome⟩ := Option.bind_eq_some_iff.1 h
    obtain ⟨v, hv, hsome'⟩ := Option.bind_eq_some_iff.1 hsome
    obtain ⟨gs, hgs, ⟨⟩⟩ := Option.bind_eq_some_iff.1 hsome'
    exact Nat.max_le.2 ⟨Nat.le_trans (height_le_frames d hv) (Nat.le_max_left _ _),
      Nat.le_trans (heightOfFields_le_frames fields hgs) (Nat.le_max_right _ _)⟩

end

variable {d : Datum} {v : Value} {room : Nat}

/-- A datum is written as a whole as the value that it stands for. -/
theorem write_ends (hv : d.value? = some v) (h : v.IsPortable) (detour room : Nat) :
    WritesIn (d.frames detour) room (d.write (.oneLine detour) room) fun t => t.chars = v.chars :=
  writeAt_ends 0 d room hv h

theorem write_of_le (hv : d.value? = some v) (h : v.IsPortable) (hroom : d.frames detour ≤ room) :
    ∃ t, d.write (.oneLine detour) room = .ok t := by
  cases hwrite : d.write (.oneLine detour) room with
  | ok t => exact ⟨t, rfl⟩
  | error e => exact absurd ((write_ends hv h detour room).of_error hwrite).2 (Nat.not_lt.2 hroom)

theorem write_of_lt (hv : d.value? = some v) (h : v.IsPortable) (hroom : room < d.frames detour) :
    d.write (.oneLine detour) room = .error (.fault .recursion) := by
  cases hwrite : d.write (.oneLine detour) room with
  | ok t => exact absurd ((write_ends hv h detour room).of_ok hwrite).1 (Nat.not_le.2 hroom)
  | error e => rw [((write_ends hv h detour room).of_error hwrite).1]

/-- **What has been written of a value is read as that value**, if reading may go as deep as writing. -/
theorem parse_of_write (hv : d.value? = some v) (h : v.IsPortable) (hroom : room ≤ nestingLimit)
    {t : Text} (hwrite : d.write (.oneLine detour) room = .ok t) : parse t.shown = .ok v := by
  obtain ⟨hframes, hchars⟩ := (write_ends hv h detour room).of_ok hwrite
  rw [Text.shown_eq, hchars]
  exact parse_chars h (Nat.le_trans (height_le_frames d hv) (Nat.le_trans hframes hroom))

end Datum

/-! ## Values as data -/

namespace Value

mutual

theorem value?_toDatum : ∀ v : Value, v.toDatum.value? = some v
  | .null => rfl
  | .bool _ => rfl
  | .int _ => rfl
  | .float _ => rfl
  | .text _ => rfl
  | .list items => by rw [toDatum, Datum.value?, values?_itemsToData, Option.map_some]
  | .object fields => by rw [toDatum, Datum.value?, fields?_fieldsToData, Option.map_some]

theorem values?_itemsToData : ∀ items : List Value,
    Datum.values? (itemsToData items) = some items
  | [] => rfl
  | item :: items => by
    rw [itemsToData, Datum.values?, value?_toDatum, values?_itemsToData]
    rfl

theorem fields?_fieldsToData : ∀ fields : List (Text × Value),
    Datum.fields? (fieldsToData fields) = some fields
  | [] => rfl
  | (name, v) :: fields => by
    rw [fieldsToData, Datum.fields?, value?_toDatum, fields?_fieldsToData]
    rfl

end

end Value

end RowAlgebra.Json
