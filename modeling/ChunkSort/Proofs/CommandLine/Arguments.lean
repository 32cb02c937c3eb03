import ChunkSort.CommandLine.Arguments

/-!
Options in their long form, which can be given any value.
-/

namespace ChunkSort.CommandLine

/-! ### Numbers -/

theorem parseWord_toString {n : Nat} (h : n ≤ 0xFFFFFFFFFFFFFFFF) : parseWord (toString n) = some n := by
  have hdigits : (toString n).toList = Nat.toDigits 10 n := by
    rw [Nat.toString_eq_ofList_toDigits, String.toList_ofList]
  have hall : ∀ c ∈ Nat.toDigits 10 n, c.isDigit = true := fun _ =>
    Nat.isDigit_of_mem_toDigits (by decide : 0 < 10) (by decide : 10 ≤ 10)
  have hvalue : decimalValue (Nat.toDigits 10 n) = n := Nat.ofDigitChars_ten_toDigits
  have hne : Nat.toDigits 10 n ≠ [] := Nat.toDigits_ne_nil
  simp only [parseWord, hdigits]
  generalize Nat.toDigits 10 n = digits at hall hvalue hne
  -- A digit is no plus sign.
  split
  next rest => exact absurd (hall '+' List.mem_cons_self) (by decide)
  next => rw [hvalue, if_pos ⟨hne, List.all_eq_true.mpr hall, h⟩]

theorem ByteSize.parse_toString {n : Nat} (h : n ≤ 0xFFFFFFFFFFFFFFFF) : ByteSize.parse (toString n) = some n := by
  rw [ByteSize.parse, parseWord_toString h]

/-! ### Options -/

def spelled (option : Parameter × String) : String := "--" ++ option.1.name ++ "=" ++ option.2

theorem ofString_spelled (parameter : Parameter) (value : String) :
    Argument.ofString (spelled (parameter, value)) = .option parameter (some value) := by
  have htext : (spelled (parameter, value)).toList = '-' :: '-' :: (parameter.name.toList ++ '=' :: value.toList) := by
    simp [spelled]
  have hname : ∀ c ∈ parameter.name.toList, decide (c ≠ '=') = true :=
    List.all_eq_true.mp (by cases parameter <;> rfl)
  have htake : (parameter.name.toList ++ '=' :: value.toList).takeWhile (· ≠ '=') = parameter.name.toList := by
    rw [List.takeWhile_append_of_pos hname, List.takeWhile_cons_of_neg (by decide), List.append_nil]
  have hdrop : (parameter.name.toList ++ '=' :: value.toList).dropWhile (· ≠ '=') = '=' :: value.toList := by
    rw [List.dropWhile_append_of_pos hname, List.dropWhile_cons_of_neg (by decide)]
  have hfound : Parameter.ofName? parameter.name = some parameter := by cases parameter <;> rfl
  have hlong : parameter.name.toList ++ '=' :: value.toList ≠ [] := List.append_ne_nil_of_right_ne_nil _ (by nofun)
  unfold Argument.ofString
  rw [htext]
  generalize parameter.name.toList ++ '=' :: value.toList = long at htake hdrop hlong
  obtain ⟨c, rest, rfl⟩ := List.exists_cons_of_ne_nil hlong
  simp only [htake, hdrop, String.ofList_toList, hfound]

theorem ofArguments_spelled (given : List (Parameter × String)) :
    Request.ofArguments (given.map spelled) = .ok (.values given) := by
  induction given with
  | nil => rfl
  | cons option given ih =>
    obtain ⟨parameter, value⟩ := option
    rw [List.map_cons, Request.ofArguments.eq_def]
    simp only [ofString_spelled, ih]
    rfl

def options (input output : String) (descending : Bool) (scratch : Option String) (chunkRows : Nat)
    (sideBytes : Option Nat) (window : Nat) : List (Parameter × String) :=
  [(.input, input), (.output, output), (.order, if descending then "desc" else "asc"), (.chunkRows, toString chunkRows),
    (.window, toString window)] ++ (scratch.map (Parameter.scratch, ·)).toList ++
      (sideBytes.map fun bytes => (Parameter.sideBytes, toString bytes)).toList

theorem ofValues_options (input output : String) (descending : Bool) (scratch : Option String) {chunkRows : Nat}
    {sideBytes : Option Nat} {window : Nat} (hrows : chunkRows ≤ 0xFFFFFFFFFFFFFFFF)
    (hbytes : ∀ bytes ∈ sideBytes, bytes ≤ 0xFFFFFFFFFFFFFFFF) (hwindow : window ≤ 0xFFFFFFFFFFFFFFFF) :
    Settings.ofValues (options input output descending scratch chunkRows sideBytes window) =
      .ok ⟨input, output, descending, scratch.map Path.ofString, chunkRows, sideBytes, window⟩ := by
  have given (parameter : Parameter) :
      (options input output descending scratch chunkRows sideBytes window).filter (·.1 = parameter) =
        match parameter with
        | .input => [(.input, input)]
        | .output => [(.output, output)]
        | .order => [(.order, if descending then "desc" else "asc")]
        | .chunkRows => [(.chunkRows, toString chunkRows)]
        | .window => [(.window, toString window)]
        | .scratch => (scratch.map (Parameter.scratch, ·)).toList
        | .sideBytes => (sideBytes.map fun bytes => (Parameter.sideBytes, toString bytes)).toList
        | .logLevel | .threads => [] := by
    cases parameter <;> cases scratch <;> cases sideBytes <;> rfl
  have horder : Settings.parseOrder (if descending then "desc" else "asc") = some descending := by
    cases descending <;> rfl
  simp only [Settings.ofValues, Settings.lookup, given, horder, parseWord_toString hrows, parseWord_toString hwindow]
  cases scratch <;> cases sideBytes with
  | none => rfl
  | some bytes =>
    simp only [Option.map_some, Option.toList_some, ByteSize.parse_toString (hbytes bytes rfl)]
    rfl

end ChunkSort.CommandLine
