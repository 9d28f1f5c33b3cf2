/-!
# Text — Lines

Text files as lists of characters. `readlines` splits one after each
newline, which stays with its line; `rstrip` drops white space at the
end of a line.
-/

namespace RiscvSoc.Text

def readlines : List Char → List (List Char)
  | [] => []
  | c :: cs =>
      if c = '\n' then ['\n'] :: readlines cs
      else
        match readlines cs with
        | [] => [[c]]
        | l :: ls => (c :: l) :: ls

def isSpace (c : Char) : Bool := c ∈ [' ', '\t', '\n', '\r', '\x0b', '\x0c']

def rstrip (cs : List Char) : List Char := (cs.reverse.dropWhile isSpace).reverse

/-- The characters of a literal. -/
theorem toList_of_eq {s : String} {cs : List Char} (h : s = String.ofList cs) :
    s.toList = cs := by
  rw [h, String.toList_ofList]

theorem readlines_ne_nil {cs : List Char} (h : cs ≠ []) : readlines cs ≠ [] := by
  cases cs with
  | nil => exact absurd rfl h
  | cons c cs =>
      rw [readlines]
      split
      · simp
      · split <;> simp

/-- A newline ends a line: what is before it and what is behind it are
split on their own. -/
theorem readlines_append (xs ys : List Char) :
    readlines (xs ++ '\n' :: ys) = readlines (xs ++ ['\n']) ++ readlines ys := by
  induction xs with
  | nil => simp [readlines]
  | cons c xs ih =>
      simp only [List.cons_append, readlines]
      by_cases hc : c = '\n'
      · simp only [hc, if_true, ih, List.cons_append]
      · obtain ⟨l, ls, hl⟩ := List.exists_cons_of_ne_nil
          (readlines_ne_nil (by simp : xs ++ ['\n'] ≠ []))
        simp only [hc, if_false, ih, hl, List.cons_append]

theorem readlines_line {xs : List Char} (h : '\n' ∉ xs) :
    readlines (xs ++ ['\n']) = [xs ++ ['\n']] := by
  induction xs with
  | nil => rfl
  | cons c xs ih =>
      rw [List.mem_cons, not_or] at h
      rw [List.cons_append, readlines, if_neg (Ne.symm h.1), ih h.2]

theorem readlines_single {xs : List Char} (h : xs.getLast? = some '\n')
    (hn : '\n' ∉ xs.dropLast) : readlines xs = [xs] := by
  obtain ⟨zs, rfl⟩ := List.getLast?_eq_some_iff.mp h
  rw [List.dropLast_concat] at hn
  exact readlines_line hn

/-- **A file of lines** is split into them. -/
theorem readlines_flatMap {rows : List (List Char)} (h : ∀ r ∈ rows, '\n' ∉ r) :
    readlines (rows.flatMap (· ++ ['\n'])) = rows.map (· ++ ['\n']) := by
  induction rows with
  | nil => rfl
  | cons r rows ih =>
      rw [List.flatMap_cons, List.append_assoc, List.singleton_append, readlines_append,
        readlines_line (h r List.mem_cons_self),
        ih fun s hs => h s (List.mem_cons_of_mem r hs)]
      rfl

/-- A line has its newline at the end, if anywhere. -/
theorem newline_not_mem_dropLast {cs line : List Char} (h : line ∈ readlines cs) :
    '\n' ∉ line.dropLast := by
  induction cs generalizing line with
  | nil => cases h
  | cons c cs ih =>
      rw [readlines] at h
      split at h
      · rcases List.mem_cons.mp h with rfl | h
        · simp
        · exact ih h
      · rename_i hc
        split at h
        · obtain rfl : line = [c] := by simpa using h
          simp
        · rename_i l ls hls
          rcases List.mem_cons.mp h with rfl | h
          · have hl : '\n' ∉ l.dropLast := ih (by rw [hls]; exact List.mem_cons_self)
            cases l with
            | nil => simp
            | cons d l =>
                rw [List.dropLast_cons_of_ne_nil (by simp), List.mem_cons, not_or]
                exact ⟨Ne.symm hc, hl⟩
          · exact ih (by rw [hls]; exact List.mem_cons_of_mem l h)

theorem isSpace_newline : isSpace '\n' = true := rfl

/-- So a stripped line has none. -/
theorem newline_not_mem_rstrip {line : List Char} (h : '\n' ∉ line.dropLast) :
    '\n' ∉ rstrip line := by
  rw [rstrip, List.mem_reverse]
  cases hl : line.reverse with
  | nil => simp
  | cons c cs =>
      have hcs : '\n' ∉ cs := by
        have hline : line = cs.reverse ++ [c] := by
          rw [← List.reverse_reverse line, hl, List.reverse_cons]
        rw [hline, List.dropLast_concat, List.mem_reverse] at h
        exact h
      intro hmem
      by_cases hc : isSpace c = true
      · rw [List.dropWhile_cons_of_pos hc] at hmem
        exact hcs ((List.dropWhile_sublist _).subset hmem)
      · rw [List.dropWhile_cons_of_neg hc] at hmem
        rcases List.mem_cons.mp hmem with rfl | hmem
        · exact hc isSpace_newline
        · exact hcs hmem

/-- The newline of a line is stripped, and nothing else if the line does
not end in white space. -/
theorem rstrip_line {xs : List Char} (h : ∀ c ∈ xs, isSpace c = false) :
    rstrip (xs ++ ['\n']) = xs := by
  have hkeep : xs.reverse.dropWhile isSpace = xs.reverse := by
    cases hx : xs.reverse with
    | nil => rfl
    | cons c cs =>
        have hc : c ∈ xs := by
          rw [← List.mem_reverse, hx]
          exact List.mem_cons_self
        rw [List.dropWhile_cons_of_neg]
        simp [h c hc]
  rw [rstrip, List.reverse_append, List.reverse_singleton, List.singleton_append,
    List.dropWhile_cons_of_pos isSpace_newline, hkeep, List.reverse_reverse]

/-! ## Scanning a file -/

/-- What the lines of a file are read as, those that are read. -/
def scan {α : Type _} (f : List Char → Option α) (text : List Char) : List α :=
  (readlines text).filterMap f

theorem scan_append {α : Type _} (f : List Char → Option α) {xs : List Char}
    (h : xs.getLast? = some '\n') (ys : List Char) :
    scan f (xs ++ ys) = scan f xs ++ scan f ys := by
  obtain ⟨zs, rfl⟩ := List.getLast?_eq_some_iff.mp h
  rw [scan, List.append_assoc, List.singleton_append, readlines_append,
    List.filterMap_append]
  rfl

/-- A single line. -/
theorem scan_line {α : Type _} (f : List Char → Option α) {xs : List Char}
    (h : xs.getLast? = some '\n') (hn : '\n' ∉ xs.dropLast) :
    scan f xs = (f xs).toList := by
  rw [scan, readlines_single h hn]
  cases hi : f xs <;> simp [hi]

/-- A text none of whose lines is read. -/
theorem scan_eq_nil {α : Type _} {f : List Char → Option α} {text : List Char}
    (h : ∀ line ∈ readlines text, f line = none) : scan f text = [] := by
  rw [scan, List.filterMap_eq_nil_iff]
  exact h

end RiscvSoc.Text
