import Sashiko.Diff.RoundTrip
import Sashiko.Lib.Lines

/-! The diff that git writes between two trees, where no name needs quotes: files may be renamed
without an edit, and their contents may be binary. -/

namespace Sashiko

def deletedMode : Chars := "deleted file mode ".toList

namespace ChangedNames

def isDeletion : ChangedNames → Bool
  | deleted _ => true
  | _ => false

def isCreation : ChangedNames → Bool
  | created _ => true
  | _ => false

end ChangedNames

/-- A changed file. Its mode is written where it is deleted and nowhere else, and a file that is
created had no lines. -/
theorem clean_none : ∀ text ∈ (none : Option Chars), '\n' ∉ text := nofun

structure TreeChange where
  names : ChangedNames
  extended : List ExtendedHeader
  binary : Option Chars
  hunks : List Hunk
  binary_clean : ∀ text ∈ binary, '\n' ∉ text
  declared : (∃ e ∈ extended, e.keyword = deletedMode) ↔ names.isDeletion = true
  created_whole : names.isCreation = true → ∀ h ∈ hunks, preCount h.body = 0

def binaryFiles : Chars := "Binary files ".toList

namespace TreeChange

def gitLine (c : TreeChange) : Chars := diffGit ++ gitNames c.names.old.chars c.names.new.chars

def editLines (c : TreeChange) : List Chars :=
  if c.hunks.isEmpty then []
  else fileLine '-' 'a' c.names.pre :: fileLine '+' 'b' c.names.post ::
    c.hunks.flatMap Hunk.lines

/-- The lines behind the first one. -/
def innerLines (c : TreeChange) : List Chars :=
  c.extended.map (fun e => e.keyword ++ e.rest) ++
    ((c.binary.map fun text => binaryFiles ++ text).toList ++ c.editLines)

def lines (c : TreeChange) : List Chars := c.gitLine :: c.innerLines

end TreeChange

def treeLines (changes : List TreeChange) : List Chars := changes.flatMap TreeChange.lines

def renderTree (changes : List TreeChange) : String :=
  String.ofList ((treeLines changes).flatMap fun line => line ++ ['\n'])

theorem mem_innerLines {c : TreeChange} {line : Chars} (h : line ∈ c.innerLines) :
    (∃ e ∈ c.extended, line = e.keyword ++ e.rest) ∨
      (∃ text ∈ c.binary, line = binaryFiles ++ text) ∨
      line = fileLine '-' 'a' c.names.pre ∨ line = fileLine '+' 'b' c.names.post ∨
      ∃ hunk ∈ c.hunks, line ∈ hunk.lines := by
  rcases List.mem_append.mp h with hmem | hmem
  · obtain ⟨e, he, rfl⟩ := List.mem_map.mp hmem
    exact .inl ⟨e, he, rfl⟩
  rcases List.mem_append.mp hmem with hmem | hmem
  · obtain ⟨text, htext, rfl⟩ := Option.map_eq_some_iff.mp (Option.mem_toList.mp hmem)
    exact .inr (.inl ⟨text, htext, rfl⟩)
  · unfold TreeChange.editLines at hmem
    split_ifs at hmem
    · cases hmem
    · rcases List.mem_cons.mp hmem with rfl | hmem
      · exact .inr (.inr (.inl rfl))
      rcases List.mem_cons.mp hmem with rfl | hmem
      · exact .inr (.inr (.inr (.inl rfl)))
      · exact .inr (.inr (.inr (.inr (List.mem_flatMap.mp hmem))))

theorem newline_not_mem_tree {changes : List TreeChange} {line : Chars}
    (h : line ∈ treeLines changes) : '\n' ∉ line := by
  obtain ⟨c, -, hline⟩ := List.mem_flatMap.mp h
  rcases List.mem_cons.mp hline with rfl | hline
  · exact control_not_mem_gitNames _ _ (by decide)
  rcases mem_innerLines hline with ⟨e, he, rfl⟩ | ⟨text, htext, rfl⟩ | rfl | rfl | ⟨hunk, -, hmem⟩
  · exact newline_not_mem_extended (List.mem_map_of_mem he)
  · have hfixed : '\n' ∉ binaryFiles := by decide
    simp [hfixed, c.binary_clean text htext]
  · exact control_not_mem_fileLine (by decide) (by decide) _ (by decide) (by decide)
  · exact control_not_mem_fileLine (by decide) (by decide) _ (by decide) (by decide)
  · exact newline_not_mem_hunk hmem

theorem linesOf_renderTree (changes : List TreeChange) :
    linesOf (renderTree changes).toList = (treeLines changes).map dropReturn := by
  rw [renderTree, String.toList_ofList]
  exact linesOf_lines _ fun _ => newline_not_mem_tree

/-- No line behind the first one of a file looks like the first of another. -/
theorem stripChars?_innerLine {c : TreeChange} {line : Chars} (h : line ∈ c.innerLines) :
    stripChars? diffGit (dropReturn line) = none := by
  have hstart : ¬diffGit <+: line := by
    rintro ⟨rest, hrest⟩
    have hthree : line.take 3 = ['d', 'i', 'f'] := by
      rw [← hrest]
      rfl
    rcases mem_innerLines h with ⟨e, -, rfl⟩ | ⟨text, -, rfl⟩ | rfl | rfl | ⟨hunk, -, hmem⟩
    · have hother : extendedKeywords.all
          (fun k => 3 ≤ k.length && k.take 3 ≠ ['d', 'i', 'f']) = true := by decide
      have hkeyword := List.all_eq_true.mp hother e.keyword e.known
      simp only [Bool.and_eq_true, decide_eq_true_eq] at hkeyword
      rw [List.take_append_of_le_length hkeyword.1] at hthree
      exact hkeyword.2 hthree
    · cases hthree
    · revert hthree
      cases c.names.pre <;> exact nofun
    · revert hthree
      cases c.names.post <;> exact nofun
    · rcases List.mem_cons.mp hmem with rfl | hmem
      · cases hthree
      · obtain ⟨l, -, hline⟩ := List.mem_flatMap.mp hmem
        rcases List.mem_cons.mp hline with rfl | hmarker
        · have hmark := (List.cons.inj hthree).1
          cases hkind : l.kind <;> rw [hkind] at hmark <;> cases hmark
        · split_ifs at hmarker
          · rw [List.mem_singleton.mp hmarker] at hthree
            cases hthree
          · cases hmarker
  rw [stripChars?, if_neg]
  exact fun hpre => hstart <|
    (List.isPrefixOf_iff_prefix.mp hpre).trans <| dropReturn_prefix line

end Sashiko
