/-
# `JSON.parse`

The parser of the JSON grammar, error paths included: a text that is not JSON
has no value. Later members with the key of an earlier one overwrite it, so a
parsed object has unique keys whatever the text was.

The main fact is the round trip: parsing the text of a value gives the value
back with its members in enumeration order. It is what makes a JSON text a
faithful copy of an object graph, and it makes `JSON.stringify` injective up to
that order.
-/

import TamperEvidentLog.Text.JsonStringify

namespace TamperEvidentLog.Text

/-- JSON white space. -/
def isSpace (u : UInt16) : Bool := u = 0x20 || u = 0x09 || u = 0x0A || u = 0x0D

/-- Skip white space. -/
def skipSpace (s : JsString) : JsString := s.dropWhile isSpace

theorem skipSpace_cons {u : UInt16} (hu : isSpace u = false) (s : JsString) :
    skipSpace (u :: s) = u :: s := by
  simp [skipSpace, hu]

/-! ## Strings -/

/-- The code unit of a two-character escape sequence. -/
def simpleEscape (u : UInt16) : Option UInt16 :=
  if u = 0x22 then some 0x22 else if u = 0x5C then some 0x5C else if u = 0x2F then some 0x2F
  else if u = 0x62 then some 0x08 else if u = 0x66 then some 0x0C
  else if u = 0x6E then some 0x0A else if u = 0x72 then some 0x0D
  else if u = 0x74 then some 0x09 else none

/-- The code unit four hexadecimal digits stand for. -/
def unitOfHex (a b c d : UInt16) : Option UInt16 := do
  let a ← hexDigitValue a
  let b ← hexDigitValue b
  let c ← hexDigitValue c
  let d ← hexDigitValue d
  return (4096 * a + 256 * b + 16 * c + d).toUInt16

/-- The characters up to the closing quotation mark, and what follows it. -/
def readString : JsString → Option (JsString × JsString)
  | [] => none
  | u :: s =>
    if u = 0x22 then some ([], s)
    else if u = 0x5C then
      match s with
      | [] => none
      | e :: s =>
        if e = 0x75 then
          match s with
          | a :: b :: c :: d :: s => do
            let v ← unitOfHex a b c d
            let (text, rest) ← readString s
            return (v :: text, rest)
          | _ => none
        else do
          let v ← simpleEscape e
          let (text, rest) ← readString s
          return (v :: text, rest)
    else if u < 0x20 then none
    else do
      let (text, rest) ← readString s
      return (u :: text, rest)

theorem readString_quotation (s : JsString) : readString (0x22 :: s) = some ([], s) := by
  rw [readString.eq_def]
  rfl

theorem readString_unicode {a b c d v : UInt16} (hv : unitOfHex a b c d = some v)
    {s text rest : JsString} (hs : readString s = some (text, rest)) :
    readString (0x5C :: 0x75 :: a :: b :: c :: d :: s) = some (v :: text, rest) := by
  rw [readString.eq_def]
  simp [hv, hs]

theorem readString_simple {e v : UInt16} (he : e ≠ 0x75) (hv : simpleEscape e = some v)
    {s text rest : JsString} (hs : readString s = some (text, rest)) :
    readString (0x5C :: e :: s) = some (v :: text, rest) := by
  rw [readString.eq_def]
  simp [he, hv, hs]

theorem readString_plain {u : UInt16} (hquotation : u ≠ 0x22) (hescape : u ≠ 0x5C)
    (hcontrol : ¬ u < 0x20) {s text rest : JsString}
    (hs : readString s = some (text, rest)) :
    readString (u :: s) = some (u :: text, rest) := by
  rw [readString.eq_def]
  simp [hquotation, hescape, hcontrol, hs]

theorem unitOfHex_unicodeEscape (u : UInt16) :
    unitOfHex (hexDigit (u.toNat / 4096)) (hexDigit (u.toNat / 256)) (hexDigit (u.toNat / 16))
      (hexDigit u.toNat) = some u := by
  have hlt : u.toNat < 65536 := u.toNat_lt
  have hvalue : 4096 * (u.toNat / 4096 % 16) + 256 * (u.toNat / 256 % 16) +
      16 * (u.toNat / 16 % 16) + u.toNat % 16 = u.toNat := by omega
  simp only [unitOfHex, hexDigitValue_hexDigit, Option.bind_eq_bind, Option.bind_some,
    Option.pure_def, hvalue]
  exact congrArg some UInt16.ofNat_toNat

/-- An escaped code unit is read back. -/
theorem readString_escapeUnit (u : UInt16) {s text rest : JsString}
    (hs : readString s = some (text, rest)) :
    readString (escapeUnit u ++ s) = some (u :: text, rest) := by
  unfold escapeUnit
  split_ifs with h22 h5C h08 h0C h0A h0D h09 hunicode
  case pos | pos | pos | pos | pos | pos | pos =>
    subst u
    exact readString_simple (by decide) rfl hs
  case pos => exact readString_unicode (unitOfHex_unicodeEscape u) hs
  case neg =>
    simp only [Bool.or_eq_true, decide_eq_true_eq, not_or] at hunicode
    exact readString_plain h22 h5C hunicode.1 hs

/-- A surrogate is neither a quotation mark, nor a backslash, nor a control
character. -/
theorem readString_surrogate {u : UInt16} (hu : isHigh u = true ∨ isLow u = true)
    {s text rest : JsString} (hs : readString s = some (text, rest)) :
    readString (u :: s) = some (u :: text, rest) := by
  have hge : 0xD800 ≤ u.toNat := by
    simp only [isHigh, isLow, Bool.and_eq_true, decide_eq_true_eq, UInt16.le_iff_toNat_le,
      UInt16.reduceToNat] at hu
    omega
  refine readString_plain ?_ ?_ ?_ hs
  · rintro rfl
    simp at hge
  · rintro rfl
    simp at hge
  · rw [UInt16.lt_iff_toNat_lt]
    simp only [UInt16.reduceToNat]
    omega

/-- **Strings round-trip.** Reading what was escaped gives the string back and
stops behind its own quotation mark. -/
theorem readString_escape (s rest : JsString) :
    readString (escape s ++ 0x22 :: rest) = some (s, rest) := by
  induction s using escape.induct with
  | case1 => exact readString_quotation rest
  | case2 u => exact readString_escapeUnit u (readString_quotation rest)
  | case3 u v s hpair ih =>
    rw [escape, if_pos hpair]
    rw [Bool.and_eq_true] at hpair
    exact readString_surrogate (.inl hpair.1) (readString_surrogate (.inr hpair.2) ih)
  | case4 u v s hpair ih =>
    rw [escape, if_neg hpair, List.append_assoc]
    exact readString_escapeUnit u ih

/-! ## Objects -/

section Members

variable {α : Type*}

/-- `CreateDataProperty`: overwrite the member with this key, or create it
behind the others. -/
def setProperty (members : List (JsString × α)) (m : JsString × α) : List (JsString × α) :=
  if m.1 ∈ members.map Prod.fst then
    members.map fun n => if n.1 = m.1 then m else n
  else members ++ [m]

theorem keys_map_overwrite (members : List (JsString × α)) (m : JsString × α) :
    (members.map fun n => if n.1 = m.1 then m else n).map Prod.fst =
      members.map Prod.fst := by
  rw [List.map_map]
  apply List.map_congr_left
  intro n _
  by_cases hkey : n.1 = m.1 <;> simp [hkey]

theorem nodup_keys_setProperty {members : List (JsString × α)} (m : JsString × α)
    (hmembers : (members.map Prod.fst).Nodup) :
    ((setProperty members m).map Prod.fst).Nodup := by
  unfold setProperty
  split
  case isTrue => rwa [keys_map_overwrite]
  case isFalse hfresh =>
    rw [List.map_append, List.nodup_append]
    refine ⟨hmembers, by simp, fun key hkey other hother => ?_⟩
    rw [List.map_singleton, List.mem_singleton] at hother
    rintro rfl
    exact hfresh (hother ▸ hkey)

theorem mem_setProperty {members : List (JsString × α)} {m n : JsString × α}
    (hn : n ∈ setProperty members m) : n = m ∨ n ∈ members := by
  unfold setProperty at hn
  split at hn
  case isTrue =>
    obtain ⟨old, hold, rfl⟩ := List.mem_map.mp hn
    split
    · exact .inl rfl
    · exact .inr hold
  case isFalse =>
    rcases List.mem_append.mp hn with hn | hn
    · exact .inr hn
    · exact .inl (List.mem_singleton.mp hn)

/-- The object that creating these members one after the other leaves. -/
def objectOf (members : List (JsString × α)) : List (JsString × α) :=
  members.foldl setProperty []

theorem nodup_keys_foldl_setProperty {created members : List (JsString × α)}
    (hcreated : (created.map Prod.fst).Nodup) :
    ((members.foldl setProperty created).map Prod.fst).Nodup := by
  induction members generalizing created with
  | nil => exact hcreated
  | cons m members ih => exact ih (nodup_keys_setProperty m hcreated)

theorem mem_foldl_setProperty {created members : List (JsString × α)} {n : JsString × α}
    (hn : n ∈ members.foldl setProperty created) : n ∈ created ∨ n ∈ members := by
  induction members generalizing created with
  | nil => exact .inl hn
  | cons m members ih =>
    rcases ih hn with hn | hn
    · rcases mem_setProperty hn with rfl | hn
      · exact .inr (by simp)
      · exact .inl hn
    · exact .inr (by simp [hn])

theorem foldl_setProperty_of_nodup {created members : List (JsString × α)}
    (hnodup : ((created ++ members).map Prod.fst).Nodup) :
    members.foldl setProperty created = created ++ members := by
  induction members generalizing created with
  | nil => simp
  | cons m members ih =>
    have hfresh : m.1 ∉ created.map Prod.fst := by
      intro hmem
      rw [List.map_append, List.nodup_append] at hnodup
      exact hnodup.2.2 _ hmem m.1 (by simp) rfl
    have hset : setProperty created m = created ++ [m] := if_neg hfresh
    rw [List.foldl_cons, hset, ih (by simpa using hnodup)]
    simp

/-- Members with different keys are simply created in order. -/
theorem objectOf_of_nodup {members : List (JsString × α)}
    (hnodup : (members.map Prod.fst).Nodup) : objectOf members = members :=
  foldl_setProperty_of_nodup hnodup

end Members

/-! ## Values -/

/-- A literal name and what follows it. -/
def readLiteral (name s : JsString) : Option JsString :=
  if name <+: s then some (s.drop name.length) else none

namespace Json

/-- A numeral and what follows it. -/
def readNumber (s : JsString) : Option (Json × JsString) :=
  let text := s.takeWhile isNumeralUnit
  if h : isNumeral text = true then some (.number ⟨text, h⟩, s.dropWhile isNumeralUnit)
  else none

/-- `null`, `true` or `false`, and what follows it. -/
def readKeyword (s : JsString) : Option (Json × JsString) :=
  ((readLiteral (js "null") s).map (Json.null, ·)).or <|
    ((readLiteral (js "true") s).map (Json.bool true, ·)).or <|
      (readLiteral (js "false") s).map (Json.bool false, ·)

mutual

/-- A value and what follows it; the fuel bounds the depth of the recursion. -/
def parseValue : Nat → JsString → Option (Json × JsString)
  | 0, _ => none
  | fuel + 1, s =>
    match skipSpace s with
    | [] => none
    | u :: rest =>
      if u = 0x22 then (readString rest).map fun (text, rest) => (.string text, rest)
      else if u = 0x5B then
        match skipSpace rest with
        | [] => none
        | v :: after =>
          if v = 0x5D then some (.array [], after)
          else (parseItems fuel rest).map fun (items, rest) => (.array items, rest)
      else if u = 0x7B then
        match skipSpace rest with
        | [] => none
        | v :: after =>
          if v = 0x7D then some (.object [], after)
          else (parseMembers fuel rest).map fun (members, rest) =>
            (.object (objectOf members), rest)
      else if isNumeralUnit u then readNumber (u :: rest)
      else readKeyword (u :: rest)

/-- The items of an array up to its closing bracket. -/
def parseItems : Nat → JsString → Option (List Json × JsString)
  | 0, _ => none
  | fuel + 1, s => do
    let (x, rest) ← parseValue fuel s
    match skipSpace rest with
    | [] => none
    | u :: rest =>
      if u = 0x2C then (parseItems fuel rest).map fun (items, rest) => (x :: items, rest)
      else if u = 0x5D then some ([x], rest)
      else none

/-- The members of an object up to its closing brace, in the order of the
text. -/
def parseMembers : Nat → JsString → Option (List (JsString × Json) × JsString)
  | 0, _ => none
  | fuel + 1, s =>
    match skipSpace s with
    | [] => none
    | u :: rest =>
      if u = 0x22 then do
        let (key, rest) ← readString rest
        match skipSpace rest with
        | [] => none
        | u :: rest =>
          if u = 0x3A then do
            let (x, rest) ← parseValue fuel rest
            match skipSpace rest with
            | [] => none
            | u :: rest =>
              if u = 0x2C then
                (parseMembers fuel rest).map fun (members, rest) => ((key, x) :: members, rest)
              else if u = 0x7D then some ([(key, x)], rest)
              else none
          else none
      else none

end

/-- `JSON.parse(text)`; `none` is the `SyntaxError`. -/
def parse (s : JsString) : Option Json :=
  match parseValue (2 * s.length + 1) s with
  | some (j, rest) => if skipSpace rest = [] then some j else none
  | none => none

example : (parse (js "[1, true,\"a\" ,null]")).map stringify =
    some (js "[1,true,\"a\",null]") := by
  decide +kernel

/-! ### What a parser returns has unique keys -/

/-- Every result of the three parsers, at this fuel, has unique keys. -/
private def UniqueAt (fuel : Nat) : Prop :=
  (∀ s j rest, parseValue fuel s = some (j, rest) → j.uniqueKeys = true) ∧
  (∀ s items rest, parseItems fuel s = some (items, rest) →
    ∀ x ∈ items, x.uniqueKeys = true) ∧
  (∀ s members rest, parseMembers fuel s = some (members, rest) →
    ∀ m ∈ members, m.2.uniqueKeys = true)

theorem uniqueKeys_object_objectOf {members : List (JsString × Json)}
    (hmembers : ∀ m ∈ members, m.2.uniqueKeys = true) :
    (Json.object (objectOf members)).uniqueKeys = true := by
  rw [uniqueKeys_object]
  refine ⟨nodup_keys_foldl_setProperty (by simp), fun m hm => ?_⟩
  rcases mem_foldl_setProperty hm with hm | hm
  · cases hm
  · exact hmembers m hm

theorem uniqueKeys_of_readNumber {s rest : JsString} {j : Json}
    (hread : readNumber s = some (j, rest)) : j.uniqueKeys = true := by
  simp only [readNumber] at hread
  split at hread
  case isTrue =>
    cases hread
    rfl
  case isFalse => cases hread

theorem uniqueKeys_of_readKeyword {s rest : JsString} {j : Json}
    (hread : readKeyword s = some (j, rest)) : j.uniqueKeys = true := by
  simp only [readKeyword, Option.or_eq_some_iff, Option.map_eq_some_iff, Prod.mk.injEq] at hread
  rcases hread with ⟨_, _, rfl, _⟩ | ⟨_, ⟨_, _, rfl, _⟩ | ⟨_, _, _, rfl, _⟩⟩ <;> rfl

private theorem uniqueAt_parseValue {fuel : Nat} (ih : UniqueAt fuel) {s rest : JsString} {j : Json}
    (hparse : parseValue (fuel + 1) s = some (j, rest)) : j.uniqueKeys = true := by
  obtain ⟨_, hitems, hmembers⟩ := ih
  rw [parseValue] at hparse
  split at hparse
  case h_1 => cases hparse
  case h_2 u body _ =>
    split_ifs at hparse
    · obtain ⟨_, _, hj⟩ := Option.map_eq_some_iff.mp hparse
      cases hj
      rfl
    · split at hparse
      case h_1 => cases hparse
      case h_2 =>
        split_ifs at hparse
        · cases hparse
          rfl
        · obtain ⟨⟨items, _⟩, hread, hj⟩ := Option.map_eq_some_iff.mp hparse
          cases hj
          exact uniqueKeys_array.mpr (hitems _ _ _ hread)
    · split at hparse
      case h_1 => cases hparse
      case h_2 =>
        split_ifs at hparse
        · cases hparse
          rfl
        · obtain ⟨⟨members, _⟩, hread, hj⟩ := Option.map_eq_some_iff.mp hparse
          cases hj
          exact uniqueKeys_object_objectOf (hmembers _ _ _ hread)
    · exact uniqueKeys_of_readNumber hparse
    · exact uniqueKeys_of_readKeyword hparse

private theorem uniqueAt_parseItems {fuel : Nat} (ih : UniqueAt fuel) {s rest : JsString}
    {items : List Json} (hparse : parseItems (fuel + 1) s = some (items, rest)) :
    ∀ x ∈ items, x.uniqueKeys = true := by
  obtain ⟨hvalue, hitems, _⟩ := ih
  rw [parseItems] at hparse
  obtain ⟨⟨x, after⟩, hx, hparse⟩ := Option.bind_eq_some_iff.mp hparse
  have hhead := hvalue _ _ _ hx
  dsimp only at hparse
  split at hparse
  case h_1 => cases hparse
  case h_2 =>
    split_ifs at hparse
    · obtain ⟨⟨tail, _⟩, htail, hitems'⟩ := Option.map_eq_some_iff.mp hparse
      cases hitems'
      simpa [hhead] using hitems _ _ _ htail
    · cases hparse
      simpa using hhead

private theorem uniqueAt_parseMembers {fuel : Nat} (ih : UniqueAt fuel) {s rest : JsString}
    {members : List (JsString × Json)}
    (hparse : parseMembers (fuel + 1) s = some (members, rest)) :
    ∀ m ∈ members, m.2.uniqueKeys = true := by
  obtain ⟨hvalue, _, hmembers⟩ := ih
  rw [parseMembers] at hparse
  split at hparse
  case h_1 => cases hparse
  case h_2 =>
    split_ifs at hparse
    obtain ⟨⟨key, after⟩, _, hparse⟩ := Option.bind_eq_some_iff.mp hparse
    dsimp only at hparse
    split at hparse
    case h_1 => cases hparse
    case h_2 =>
      split_ifs at hparse
      obtain ⟨⟨x, after⟩, hx, hparse⟩ := Option.bind_eq_some_iff.mp hparse
      have hhead := hvalue _ _ _ hx
      dsimp only at hparse
      split at hparse
      case h_1 => cases hparse
      case h_2 =>
        split_ifs at hparse
        · obtain ⟨⟨tail, _⟩, htail, hmembers'⟩ := Option.map_eq_some_iff.mp hparse
          cases hmembers'
          simpa [hhead] using hmembers _ _ _ htail
        · cases hparse
          simpa using hhead

private theorem uniqueAt (fuel : Nat) : UniqueAt fuel := by
  induction fuel with
  | zero => simp [UniqueAt, parseValue, parseItems, parseMembers]
  | succ fuel ih =>
    exact ⟨fun _ _ _ => uniqueAt_parseValue ih, fun _ _ _ => uniqueAt_parseItems ih,
      fun _ _ _ => uniqueAt_parseMembers ih⟩

/-- A parsed value has unique keys. -/
theorem uniqueKeys_of_parse {s : JsString} {j : Json} (hparse : parse s = some j) :
    j.uniqueKeys = true := by
  unfold parse at hparse
  split at hparse
  case h_1 value rest hvalue =>
    split at hparse
    · cases hparse
      exact (uniqueAt _).1 _ _ _ hvalue
    · cases hparse
  case h_2 => cases hparse

/-! ### The round trip -/

/-- A text behind a value that cannot be mistaken for more of a numeral. -/
def Follows (rest : JsString) : Prop := ∀ u s, rest = u :: s → isNumeralUnit u = false

theorem follows_nil : Follows [] := fun _ _ h => nomatch h

theorem follows_cons {u : UInt16} (hu : isNumeralUnit u = false) (s : JsString) :
    Follows (u :: s) := by
  rintro v t ⟨⟩
  exact hu

theorem readNumber_append (n : Numeral) {rest : JsString} (hrest : Follows rest) :
    readNumber (n.text ++ rest) = some (.number n, rest) := by
  have hall : ∀ u ∈ n.text, isNumeralUnit u = true := fun u hu => n.isNumeralUnit_of_mem hu
  have htake : (n.text ++ rest).takeWhile isNumeralUnit = n.text := by
    rw [List.takeWhile_append_of_pos hall]
    cases rest with
    | nil => simp
    | cons u s => simp [hrest u s rfl]
  have hdrop : (n.text ++ rest).dropWhile isNumeralUnit = rest := by
    rw [List.dropWhile_append_of_pos hall]
    cases rest with
    | nil => rfl
    | cons u s => simp [hrest u s rfl]
  simp only [readNumber, htake, hdrop, n.isNumeral_text, dif_pos]

theorem isSpace_eq_false_of_isNumeralUnit {u : UInt16} (hu : isNumeralUnit u = true) :
    isSpace u = false := by
  simp only [isNumeralUnit, isDigit, isSpace, Bool.or_eq_true, Bool.and_eq_true,
    decide_eq_true_eq, Bool.or_eq_false_iff, decide_eq_false_iff_not, UInt16.le_iff_toNat_le,
    ← UInt16.toNat_inj, UInt16.reduceToNat] at *
  omega

theorem head_ne_of_isNumeralUnit {u : UInt16} (hu : isNumeralUnit u = true) :
    u ≠ 0x22 ∧ u ≠ 0x5B ∧ u ≠ 0x5D ∧ u ≠ 0x7B := by
  refine ⟨?_, ?_, ?_, ?_⟩ <;> rintro rfl <;> revert hu <;> decide

/-- Every text starts with a unit that is neither white space nor a closing
bracket. -/
theorem stringify_eq_cons (j : Json) :
    ∃ u s, j.stringify = u :: s ∧ isSpace u = false ∧ u ≠ 0x5D := by
  cases j with
  | null => exact ⟨0x6E, _, rfl, by decide, by decide⟩
  | bool b =>
    cases b
    · exact ⟨0x66, _, rfl, by decide, by decide⟩
    · exact ⟨0x74, _, rfl, by decide, by decide⟩
  | number n =>
    obtain ⟨u, s, htext⟩ := n.exists_cons
    have hu : isNumeralUnit u = true := n.isNumeralUnit_of_mem (by simp [htext])
    exact ⟨u, s, htext, isSpace_eq_false_of_isNumeralUnit hu,
      (head_ne_of_isNumeralUnit hu).2.2.1⟩
  | string s => exact ⟨0x22, _, rfl, by decide, by decide⟩
  | array items => exact ⟨0x5B, _, stringify_array items, by decide, by decide⟩
  | object members => exact ⟨0x7B, _, stringify_object members, by decide, by decide⟩

/-- The parser reads this value back at every sufficient fuel. -/
def ReadsBack (j : Json) : Prop :=
  ∀ fuel rest, 2 * j.stringify.length ≤ fuel → Follows rest →
    parseValue fuel (j.stringify ++ rest) = some (j.ordered, rest)

/-- Fuel for a whole text is fuel for its first step. -/
theorem exists_fuel_succ {j : Json} {fuel : Nat} (hfuel : 2 * j.stringify.length ≤ fuel) :
    ∃ k, fuel = k + 1 := by
  obtain ⟨u, s, htext, _⟩ := stringify_eq_cons j
  rw [htext, List.length_cons] at hfuel
  exact ⟨fuel - 1, by omega⟩

theorem readLiteral_append (name rest : JsString) :
    readLiteral name (name ++ rest) = some rest := by
  simp [readLiteral]

theorem readLiteral_of_ne {u v : UInt16} (hne : u ≠ v) (name s : JsString) :
    readLiteral (u :: name) (v :: s) = none := by
  apply if_neg
  intro hprefix
  exact hne (List.cons_prefix_cons.mp hprefix).1

theorem readKeyword_null (rest : JsString) :
    readKeyword (js "null" ++ rest) = some (.null, rest) := by
  simp [readKeyword, readLiteral_append]

theorem readKeyword_true (rest : JsString) :
    readKeyword (js "true" ++ rest) = some (.bool true, rest) := by
  have hnull : readLiteral (js "null") (js "true" ++ rest) = none :=
    readLiteral_of_ne (by decide) _ _
  simp [readKeyword, hnull, readLiteral_append]

theorem readKeyword_false (rest : JsString) :
    readKeyword (js "false" ++ rest) = some (.bool false, rest) := by
  have hnull : readLiteral (js "null") (js "false" ++ rest) = none :=
    readLiteral_of_ne (by decide) _ _
  have htrue : readLiteral (js "true") (js "false" ++ rest) = none :=
    readLiteral_of_ne (by decide) _ _
  simp [readKeyword, hnull, htrue, readLiteral_append]

/-- At the first unit of a keyword the parser reads a keyword. -/
theorem parseValue_keyword {fuel : Nat} {u : UInt16} {s : JsString}
    (hu : isSpace u = false ∧ isNumeralUnit u = false ∧ u ≠ 0x22 ∧ u ≠ 0x5B ∧ u ≠ 0x7B) :
    parseValue (fuel + 1) (u :: s) = readKeyword (u :: s) := by
  obtain ⟨hspace, hnumeral, hquote, hbracket, hbrace⟩ := hu
  simp [parseValue, skipSpace_cons hspace, hnumeral, hquote, hbracket, hbrace]

theorem readsBack_null : ReadsBack .null := by
  intro fuel rest hfuel _
  obtain ⟨fuel, rfl⟩ := exists_fuel_succ hfuel
  exact (parseValue_keyword (by decide)).trans (readKeyword_null rest)

theorem readsBack_bool (b : Bool) : ReadsBack (.bool b) := by
  intro fuel rest hfuel _
  obtain ⟨fuel, rfl⟩ := exists_fuel_succ hfuel
  cases b
  · exact (parseValue_keyword (by decide)).trans (readKeyword_false rest)
  · exact (parseValue_keyword (by decide)).trans (readKeyword_true rest)

theorem readsBack_number (n : Numeral) : ReadsBack (.number n) := by
  intro fuel rest hfuel hrest
  obtain ⟨u, s, htext⟩ := n.exists_cons
  have hu : isNumeralUnit u = true := n.isNumeralUnit_of_mem (by simp [htext])
  obtain ⟨hquote, hbracket, _, hbrace⟩ := head_ne_of_isNumeralUnit hu
  obtain ⟨fuel, rfl⟩ := exists_fuel_succ hfuel
  have hread := readNumber_append n hrest
  rw [htext, List.cons_append] at hread
  rw [stringify, ordered, htext, List.cons_append, parseValue,
    skipSpace_cons (isSpace_eq_false_of_isNumeralUnit hu)]
  simp [hquote, hbracket, hbrace, hu, hread]

theorem readsBack_string (s : JsString) : ReadsBack (.string s) := by
  intro fuel rest hfuel _
  obtain ⟨fuel, rfl⟩ := exists_fuel_succ hfuel
  have hread := readString_escape s rest
  rw [stringify, ordered, quote, List.append_assoc, List.cons_append, parseValue,
    skipSpace_cons (by decide)]
  simp [hread]

/-- Items that are read back one by one are read back as a joined list. -/
theorem parseItems_join {items : List Json} (hne : items ≠ [])
    (hitems : ∀ x ∈ items, ReadsBack x) (fuel : Nat) (rest : JsString)
    (hfuel : 2 * (joinWith 0x2C (items.map stringify)).length + 1 ≤ fuel) :
    parseItems fuel (joinWith 0x2C (items.map stringify) ++ 0x5D :: rest) =
      some (items.map ordered, rest) := by
  induction items generalizing fuel with
  | nil => exact absurd rfl hne
  | cons x tail ih =>
    obtain ⟨fuel, rfl⟩ : ∃ k, fuel = k + 1 := ⟨fuel - 1, by omega⟩
    have hx := hitems x (by simp)
    cases tail with
    | nil =>
      simp only [List.map_cons, List.map_nil, joinWith_singleton] at hfuel ⊢
      have hhead := hx fuel (0x5D :: rest) (by omega) (follows_cons (by decide) rest)
      simp (disch := decide) [parseItems, hhead, skipSpace_cons]
    | cons y tail =>
      simp only [List.map_cons, joinWith_cons_cons, List.length_append,
        List.length_cons] at hfuel ih ⊢
      have htail := ih (by simp) (fun z hz => hitems z (by simp [hz])) fuel (by omega)
      have hhead := hx fuel
        (0x2C :: (joinWith 0x2C (y.stringify :: tail.map stringify) ++ 0x5D :: rest))
        (by omega) (follows_cons (by decide) _)
      rw [List.append_assoc, List.cons_append, parseItems, hhead]
      simp (disch := decide) [skipSpace_cons, htail]

theorem readsBack_array {items : List Json} (hitems : ∀ x ∈ items, ReadsBack x) :
    ReadsBack (.array items) := by
  intro fuel rest hfuel _
  obtain ⟨fuel, rfl⟩ := exists_fuel_succ hfuel
  rw [stringify_array] at hfuel ⊢
  simp only [List.cons_append, List.length_cons, List.length_append, List.append_assoc,
    List.nil_append, List.length_nil] at hfuel ⊢
  rw [ordered_array, parseValue, skipSpace_cons (by decide)]
  cases items with
  | nil => simp (disch := decide) [skipSpace_cons]
  | cons x tail =>
    have hread := parseItems_join (by simp) hitems fuel rest (by omega)
    obtain ⟨u, s, hjoin, hspace, hbracket⟩ : ∃ u s,
        joinWith 0x2C ((x :: tail).map stringify) = u :: s ∧ isSpace u = false ∧ u ≠ 0x5D := by
      obtain ⟨u, s, htext, hspace, hbracket⟩ := stringify_eq_cons x
      cases tail with
      | nil => exact ⟨u, s, htext, hspace, hbracket⟩
      | cons y tail =>
        rw [List.map_cons, List.map_cons, joinWith_cons_cons, htext]
        exact ⟨u, _, rfl, hspace, hbracket⟩
    rw [hjoin] at hread ⊢
    rw [List.cons_append] at hread ⊢
    simp [skipSpace_cons hspace, hbracket, hread]

/-- Members whose values are read back are read back as a joined list. -/
theorem parseMembers_join {members : List (JsString × Json)} (hne : members ≠ [])
    (hmembers : ∀ m ∈ members, ReadsBack m.2) (fuel : Nat) (rest : JsString)
    (hfuel : 2 * (joinWith 0x2C ((mapValues stringify members).map memberText)).length + 1 ≤ fuel) :
    parseMembers fuel
        (joinWith 0x2C ((mapValues stringify members).map memberText) ++ 0x7D :: rest) =
      some (mapValues ordered members, rest) := by
  induction members generalizing fuel with
  | nil => exact absurd rfl hne
  | cons m tail ih =>
    obtain ⟨fuel, rfl⟩ : ∃ k, fuel = k + 1 := ⟨fuel - 1, by omega⟩
    have hm := hmembers m (by simp)
    cases tail with
    | nil =>
      simp only [mapValues_cons, mapValues_nil, List.map_cons, List.map_nil,
        joinWith_singleton, memberText, List.length_append, List.length_cons] at hfuel ⊢
      have hvalue := hm fuel (0x7D :: rest) (by omega) (follows_cons (by decide) rest)
      have hkey := readString_escape m.1 (0x3A :: (m.2.stringify ++ 0x7D :: rest))
      rw [quote, List.append_assoc, List.append_assoc, List.cons_append, parseMembers,
        skipSpace_cons (by decide)]
      simp (disch := decide) [hkey, hvalue, skipSpace_cons]
    | cons n tail =>
      simp only [mapValues_cons, List.map_cons, joinWith_cons_cons, List.length_append,
        List.length_cons] at hfuel ih ⊢
      have htail := ih (by simp) (fun z hz => hmembers z (by simp [hz])) fuel (by omega)
      generalize joinWith 0x2C (memberText (n.1, n.2.stringify) ::
        (mapValues stringify tail).map memberText) = others at hfuel htail ⊢
      simp only [memberText, List.length_append, List.length_cons] at hfuel ⊢
      have hvalue := hm fuel (0x2C :: (others ++ 0x7D :: rest)) (by omega)
        (follows_cons (by decide) _)
      have hkey := readString_escape m.1
        (0x3A :: (m.2.stringify ++ 0x2C :: (others ++ 0x7D :: rest)))
      simp only [quote, List.append_assoc, List.cons_append, List.nil_append]
      rw [parseMembers, skipSpace_cons (by decide)]
      simp (disch := decide) [hkey, hvalue, htail, skipSpace_cons]

theorem readsBack_object {members : List (JsString × Json)}
    (hunique : (members.map Prod.fst).Nodup) (hmembers : ∀ m ∈ members, ReadsBack m.2) :
    ReadsBack (.object members) := by
  intro fuel rest hfuel _
  obtain ⟨fuel, rfl⟩ := exists_fuel_succ hfuel
  rw [stringify_object] at hfuel ⊢
  simp only [List.cons_append, List.length_cons, List.length_append, List.append_assoc,
    List.nil_append, List.length_nil] at hfuel ⊢
  have hperm := ownProperties_perm members
  have hnodup : ((mapValues ordered (ownProperties members)).map Prod.fst).Nodup := by
    rw [keys_mapValues, (hperm.map Prod.fst).nodup_iff]
    exact hunique
  have hall : ∀ m ∈ ownProperties members, ReadsBack m.2 :=
    fun m hm => hmembers m (hperm.mem_iff.mp hm)
  rw [ordered_object, ownProperties_mapValues, parseValue, skipSpace_cons (by decide)]
  cases hown : ownProperties members with
  | nil => simp (disch := decide) [skipSpace_cons]
  | cons m tail =>
    rw [hown] at hfuel hnodup hall
    have hread := parseMembers_join (by simp) hall fuel rest (by omega)
    obtain ⟨s, hjoin⟩ : ∃ s,
        joinWith 0x2C ((mapValues stringify (m :: tail)).map memberText) = 0x22 :: s := by
      cases tail with
      | nil => exact ⟨_, rfl⟩
      | cons n tail => exact ⟨_, rfl⟩
    rw [hjoin] at hread ⊢
    rw [List.cons_append] at hread ⊢
    have hobject := objectOf_of_nodup hnodup
    rw [mapValues_cons] at hobject
    simp (disch := decide) [skipSpace_cons, hread, hobject]

/-- The parser reads every value with unique keys back. -/
theorem readsBack {j : Json} (hj : j.uniqueKeys = true) : ReadsBack j := by
  induction j using Json.inductionOn with
  | null => exact readsBack_null
  | bool b => exact readsBack_bool b
  | number n => exact readsBack_number n
  | string s => exact readsBack_string s
  | array items ih =>
    rw [uniqueKeys_array] at hj
    exact readsBack_array fun x hx => ih x hx (hj x hx)
  | object members ih =>
    rw [uniqueKeys_object] at hj
    exact readsBack_object hj.1 fun m hm => ih m hm (hj.2 m hm)

/-- **The round trip.** The text of a value parses to the value with its
members in enumeration order. -/
theorem parse_stringify {j : Json} (hj : j.uniqueKeys = true) :
    parse j.stringify = some j.ordered := by
  have hread := readsBack hj (2 * j.stringify.length + 1) [] (by omega) follows_nil
  rw [List.append_nil] at hread
  rw [parse, hread]
  rfl

end Json

/-- `JSON.parse(text)`; `none` is the `SyntaxError`. -/
def JsonValue.parse (s : JsString) : Option JsonValue :=
  match h : Json.parse s with
  | some j => some ⟨j, Json.uniqueKeys_of_parse h⟩
  | none => none

theorem JsonValue.parse_eq_some {s : JsString} {v : JsonValue}
    (hparse : Json.parse s = some v.json) : JsonValue.parse s = some v := by
  unfold JsonValue.parse
  split
  case h_1 j hj =>
    rw [hj] at hparse
    exact congrArg some (JsonValue.ext (Option.some.inj hparse))
  case h_2 hnone =>
    rw [hnone] at hparse
    cases hparse

/-- **The round trip**, for object graphs. -/
theorem JsonValue.parse_stringify (v : JsonValue) :
    JsonValue.parse v.stringify = some v.ordered :=
  JsonValue.parse_eq_some (Json.parse_stringify v.uniqueKeys_json)

/-- Two values with one text differ at most in the order of creation that
enumeration hides. -/
theorem JsonValue.ordered_eq_of_stringify_eq {v w : JsonValue}
    (htext : v.stringify = w.stringify) : v.ordered = w.ordered := by
  have hparse := JsonValue.parse_stringify v
  rw [htext, JsonValue.parse_stringify] at hparse
  exact (Option.some.inj hparse).symm

end TamperEvidentLog.Text
