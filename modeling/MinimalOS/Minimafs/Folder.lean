import MinimalOS.Minimafs.Volume
import MinimalOS.Minimafs.Header

/-!
# What is read back from a folder descriptor

A folder is one block of text: its path, the number of its entries and a line for each. The reader
takes the entries from the lines alone, and finds what was printed.
-/

namespace MinimalOS.Minimafs

open CString List

/-! ## The lines of a descriptor -/

/-- The line of an entry, without its line break. -/
def entryLine (e : DirEntry) : List UInt8 :=
  ascii "ENTRY:" ++ (e.name ++ 44 :: (e.type.text ++ (ascii ",BLOCK:" ++ (uintToStr e.blockOffset ++
    (ascii ",COUNT:" ++ (uintToStr e.blockCount ++
      (ascii ",HIDDEN:" ++ uintToStr (if e.hidden then 1 else 0))))))))

def folderLines (desc : FolderDesc) : List (List UInt8) :=
  [ascii "FOLDER:" ++ desc.path, ascii "ENTRIES:" ++ uintToStr desc.entries.length] ++
    (desc.entries.map entryLine ++ [ascii "@END"])

theorem entryText_eq (e : DirEntry) (rest : List UInt8) :
    entryText e ++ rest = entryLine e ++ 10 :: rest := by
  simp [entryText, entryLine, ascii]

variable {buffer text : List UInt8} {es : List DirEntry}

theorem printEntries_eq (h : printEntries buffer es = some text) :
    text = buffer ++ joinLines (es.map entryLine) [] := by
  induction es generalizing buffer with
  | nil =>
    cases h
    simp [joinLines]
  | cons e es ih =>
    rw [printEntries] at h
    split_ifs at h
    rw [ih h, append_assoc, entryText_eq]
    rfl

theorem printFolderDesc_eq {desc : FolderDesc} (h : printFolderDesc desc = some text) :
    text = joinLines (folderLines desc) [] := by
  obtain ⟨s, hs, rfl⟩ := Option.map_eq_some_iff.mp h
  rw [printEntries_eq hs, folderLines, joinLines_append, joinLines_append]
  have hend : ascii "@END\n" = joinLines [ascii "@END"] [] := rfl
  rw [append_assoc, ← joinLines_eq_append, ← hend]
  simp [folderHead, joinLines, ascii]

/-! ## What may stand in a descriptor -/

/-- An entry whose line can be read back. -/
structure DirEntry.Printable (e : DirEntry) : Prop where
  name : IsLine e.name
  comma : (44 : UInt8) ∉ e.name
  size : e.name.length < maxEntryName
  offset : e.blockOffset < 2 ^ 32
  count : e.blockCount < 2 ^ 32

structure FolderDesc.Printable (desc : FolderDesc) : Prop where
  path : IsLine desc.path
  size : desc.path.length < maxPath
  few : desc.entries.length ≤ maxRootEntries
  entries : ∀ e ∈ desc.entries, e.Printable

theorem isLine_uintToStr (n : ℕ) : IsLine (uintToStr n) :=
  ⟨fun h => absurd (isDigit_uintToStr h) (by decide), fun h => absurd (isDigit_uintToStr h) (by decide)⟩

variable {e : DirEntry} {desc : FolderDesc} {rest : List UInt8}

theorem DirEntry.Printable.isLine (he : e.Printable) : IsLine (entryLine e) := by
  have htype : IsLine e.type.text := by cases e.type <;> decide
  have hflag : IsLine (ascii ",HIDDEN:" ++ uintToStr (if e.hidden then 1 else 0)) :=
    (show IsLine (ascii ",HIDDEN:") by decide).append (isLine_uintToStr _)
  have hcount := (isLine_uintToStr e.blockCount).append hflag
  have hoffset := (isLine_uintToStr e.blockOffset).append
    ((show IsLine (ascii ",COUNT:") by decide).append hcount)
  have hrest := htype.append ((show IsLine (ascii ",BLOCK:") by decide).append hoffset)
  exact (show IsLine (ascii "ENTRY:") by decide).append
    (he.name.append ((show IsLine [44] by decide).append hrest))

theorem FolderDesc.Printable.isLine (hd : desc.Printable) {l : List UInt8}
    (hl : l ∈ folderLines desc) : IsLine l := by
  simp only [folderLines, mem_append, mem_cons, mem_map, not_mem_nil,
    or_false] at hl
  rcases hl with (rfl | rfl) | ⟨e, he, rfl⟩ | rfl
  · exact (show IsLine (ascii "FOLDER:") by decide).append hd.path
  · exact (show IsLine (ascii "ENTRIES:") by decide).append (isLine_uintToStr _)
  · exact (hd.entries e he).isLine
  · decide

/-! ## Lengths -/

theorem length_uintToStr_le_ten {n : ℕ} (h : n < 2 ^ 32) : (uintToStr n).length ≤ 10 :=
  length_uintToStr_le (by decide) (h.trans (by decide))

theorem DirEntry.Printable.length (he : e.Printable) : (entryLine e).length ≤ 117 := by
  have hname : e.name.length < 64 := he.size
  have htype : e.type.text.length ≤ 4 := by cases e.type <;> decide
  have hoffset := length_uintToStr_le_ten he.offset
  have hcount := length_uintToStr_le_ten he.count
  have hflag : (uintToStr (if e.hidden then 1 else 0)).length = 1 := by cases e.hidden <;> rfl
  have hliterals : (ascii "ENTRY:").length = 6 ∧ (ascii ",BLOCK:").length = 7 ∧
      (ascii ",COUNT:").length = 7 ∧ (ascii ",HIDDEN:").length = 8 := by decide
  simp only [entryLine, length_append, length_cons]
  omega

theorem printEntries_length (h : printEntries buffer es = some text) (hes : ∀ e ∈ es, e.Printable) :
    text.length ≤ max buffer.length 4086 := by
  induction es generalizing buffer with
  | nil =>
    cases h
    exact le_max_left _ _
  | cons e es ih =>
    rw [printEntries] at h
    split_ifs at h with hfull
    have hroom : buffer.length ≤ 3968 := not_lt.mp hfull
    have he := (hes e mem_cons_self).length
    have htext : (buffer ++ entryText e).length = buffer.length + (entryLine e).length + 1 := by
      rw [← append_nil (entryText e), entryText_eq, length_append, length_append]
      rfl
    have hle := ih h fun e he => hes e (mem_cons_of_mem _ he)
    rw [htext] at hle
    omega

/-- A descriptor that is printed has room in its block. -/
theorem printFolderDesc_length (h : printFolderDesc desc = some text) (hd : desc.Printable) :
    text.length < blockSize := by
  obtain ⟨s, hs, rfl⟩ := Option.map_eq_some_iff.mp h
  have hle := printEntries_length hs hd.entries
  have hpath : desc.path.length < 1024 := hd.size
  have hcount := length_uintToStr_le_ten
    (show desc.entries.length < 2 ^ 32 from hd.few.trans_lt (by decide))
  have hliterals : (ascii "FOLDER:").length = 7 ∧ (ascii "\n").length = 1 ∧
      (ascii "ENTRIES:").length = 8 ∧ (ascii "@END\n").length = 5 := by decide
  have hhead : (folderHead desc).length ≤ 1060 := by
    simp only [folderHead, length_append]
    omega
  rw [length_append]
  show s.length + (ascii "@END\n").length < 4096
  omega

/-! ## Reading an entry -/

theorem parseUint32_uintToStr {n : ℕ} (h : n < 2 ^ 32) {c : UInt8} (hc : ¬ IsDigit c)
    (rest : List UInt8) : parseUint32 (uintToStr n ++ c :: rest) = n := by
  have hdigit : ∀ d ∈ uintToStr n, IsDigit d := fun d hd => isDigit_uintToStr hd
  have hdrop : (uintToStr n ++ c :: rest).dropWhile (fun c => c ≠ 0 ∧ ¬ IsDigit c) =
      uintToStr n ++ c :: rest := by
    cases hstr : uintToStr n with
    | nil => exact absurd hstr (uintToStr_ne_nil n)
    | cons x xs =>
      have hx := hdigit x (hstr ▸ mem_cons_self)
      rw [cons_append, dropWhile_cons_of_neg (by simp [hx])]
  have htake : (uintToStr n ++ c :: rest).takeWhile (fun c => IsDigit c) = uintToStr n := by
    rw [takeWhile_append_of_pos fun d hd => decide_eq_true (hdigit d hd),
      takeWhile_cons_of_neg (by simpa using hc), append_nil]
  have hvalue := decimalValue_uintToStr (v := n) (h.trans (by decide))
  rw [parseUint32]
  simp only [hdrop, htake]
  refine (foldl_mod_decimal (2 ^ 32) (uintToStr n) 0).trans ?_
  rw [decimalValue] at hvalue
  rw [hvalue, Nat.mod_eq_of_lt h]

theorem fieldAfter_here (tag : String) (s : List UInt8) (hne : (ascii tag).head? ≠ none)
    (hzero : (ascii tag).head? ≠ some 0) :
    fieldAfter tag (ascii tag ++ s) = some (parseUint32 s) := by
  rw [fieldAfter, strstr_here hne hzero (prefix_append _ _), Option.map_some, drop_left]

theorem strstr_pass (tag name : List UInt8) (hname : IsLine name) (hcomma : (44 : UInt8) ∉ name)
    (hother : ∀ s, ¬ tag <+: name ++ s) (n : ℕ) (s : List UInt8) :
    strstr (44 :: tag) (44 :: (name ++ (uintToStr n ++ s))) = strstr (44 :: tag) s := by
  have hdigits : (44 : UInt8) ∉ uintToStr n := fun h => absurd (isDigit_uintToStr h) (by decide)
  rw [strstr_step (by decide) (fun h => hother _ (cons_prefix_cons.mp h).2),
    strstr_skip _ hname.1 hcomma, strstr_skip _ (isLine_uintToStr n).1 hdigits]

def entryFields (e : DirEntry) (rest : List UInt8) : List UInt8 :=
  ascii ",BLOCK:" ++ (uintToStr e.blockOffset ++ (ascii ",COUNT:" ++ (uintToStr e.blockCount ++
    (ascii ",HIDDEN:" ++ (uintToStr (if e.hidden then 1 else 0) ++ 10 :: rest)))))

theorem fieldAfter_count (he : e.Printable) (rest : List UInt8) :
    fieldAfter ",COUNT:" (entryFields e rest) = some e.blockCount := by
  rw [fieldAfter, show strstr (ascii ",COUNT:") (entryFields e rest) = _ from
    strstr_pass (ascii "COUNT:") (ascii "BLOCK:") (by decide) (by decide)
      (fun s h => by simp [ascii] at h) e.blockOffset _]
  refine (fieldAfter_here ",COUNT:" _ (by decide) (by decide)).trans ?_
  rw [show ascii ",HIDDEN:" = 44 :: ascii "HIDDEN:" from rfl, cons_append,
    parseUint32_uintToStr he.count (by decide)]

theorem fieldAfter_hidden (e : DirEntry) (rest : List UInt8) :
    fieldAfter ",HIDDEN:" (entryFields e rest) = some (if e.hidden then 1 else 0) := by
  have hpass := fun name hname hcomma hother n s =>
    strstr_pass (ascii "HIDDEN:") (ascii name) hname hcomma hother n s
  rw [fieldAfter, show strstr (ascii ",HIDDEN:") (entryFields e rest) = _ from
    (hpass "BLOCK:" (by decide) (by decide) (fun s h => by simp [ascii] at h) _ _).trans
      (hpass "COUNT:" (by decide) (by decide) (fun s h => by simp [ascii] at h) _ _)]
  refine (fieldAfter_here ",HIDDEN:" _ (by decide) (by decide)).trans ?_
  rw [parseUint32_uintToStr (by split_ifs <;> decide) (by decide)]

/-- The line of an entry is read back as that entry. -/
theorem parseFolderEntryLine_entryLine (he : e.Printable) (rest : List UInt8) :
    parseFolderEntryLine (entryLine e ++ 10 :: rest) = some e := by
  have htype0 : (0 : UInt8) ∉ e.type.text ∧ (44 : UInt8) ∉ e.type.text := by cases e.type <;> decide
  have hsize : e.type.text.length < 8 := by cases e.type <;> decide
  have htext : entryLine e ++ 10 :: rest =
      ascii "ENTRY:" ++ (e.name ++ 44 :: (e.type.text ++ entryFields e rest)) := by
    simp [entryLine, entryFields]
  have hstart : (ascii "ENTRY:").isPrefixOf (entryLine e ++ 10 :: rest) = true := by
    rw [htext, isPrefixOf_iff_prefix]
    exact prefix_append _ _
  have hdrop : (entryLine e ++ 10 :: rest).drop 6 =
      e.name ++ 44 :: (e.type.text ++ entryFields e rest) := by
    rw [htext]
    exact drop_left' rfl
  have hblock : strstr (ascii ",BLOCK:") (e.type.text ++ entryFields e rest) =
      some (entryFields e rest) := by
    have hskip : strstr (44 :: ascii "BLOCK:") (e.type.text ++ entryFields e rest) =
        strstr (44 :: ascii "BLOCK:") (entryFields e rest) := strstr_skip _ htype0.1 htype0.2
    have hhere : ascii ",BLOCK:" <+: entryFields e rest := prefix_append _ _
    exact hskip.trans (strstr_here (by decide) (by decide) hhere)
  have hoffset : parseUint32 ((entryFields e rest).drop 7) = e.blockOffset := by
    have hseven : (entryFields e rest).drop 7 = uintToStr e.blockOffset ++ 44 ::
        (ascii "COUNT:" ++ (uintToStr e.blockCount ++ (ascii ",HIDDEN:" ++
          (uintToStr (if e.hidden then 1 else 0) ++ 10 :: rest)))) := rfl
    rw [hseven, parseUint32_uintToStr he.offset (by decide)]
  have hkind : (if e.type.text = ascii "DIR" then EntryType.dir else .file) = e.type := by
    cases e.type <;> rfl
  have hhidden : decide ((if e.hidden then 1 else 0) ≠ 0) = e.hidden := by cases e.hidden <;> rfl
  rw [parseFolderEntryLine, if_pos hstart]
  simp only [hdrop, strchr_append _ he.name.1 he.comma (by decide), Option.bind_some,
    tail_cons, hblock, Option.map_some, cutAt_append _ _ he.size, cutAt_append _ _ hsize,
    fieldAfter_count he, fieldAfter_hidden, Option.getD_some, hoffset, hkind]
  rw [hhidden]

/-! ## Reading a folder -/

theorem parseFolderLine_entry (he : e.Printable) (rest : List UInt8)
    (hfew : desc.entries.length < maxRootEntries) :
    parseFolderLine desc (entryLine e ++ 10 :: rest) =
      { desc with entries := desc.entries ++ [e] } := by
  have hnot : ¬ (ascii "FOLDER:").isPrefixOf (entryLine e ++ 10 :: rest) = true := by
    intro h
    have h := isPrefixOf_iff_prefix.mp h
    simp [entryLine, ascii] at h
  rw [parseFolderLine, if_neg hnot, if_pos hfew, parseFolderEntryLine_entryLine he]

theorem parseFolderLine_path {path : List UInt8} (hpath : IsLine path)
    (hsize : path.length < maxPath) (rest : List UInt8) :
    parseFolderLine desc ((ascii "FOLDER:" ++ path) ++ 10 :: rest) = { desc with path := path } := by
  have hline : IsLine (ascii "FOLDER:" ++ path) :=
    (show IsLine (ascii "FOLDER:") by decide).append hpath
  have hstart : (ascii "FOLDER:").isPrefixOf ((ascii "FOLDER:" ++ path) ++ 10 :: rest) = true := by
    rw [append_assoc, isPrefixOf_iff_prefix]
    exact prefix_append _ _
  rw [parseFolderLine, if_pos hstart, lineText_line rest hline.1 hline.2,
    drop_left' (show (ascii "FOLDER:").length = 7 from rfl), take_of_length_le]
  exact Nat.le_pred_of_lt hsize

theorem parseFolderLine_other {line : List UInt8} (hpath : ¬ ascii "FOLDER:" <+: line)
    (hentry : ¬ ascii "ENTRY:" <+: line) : parseFolderLine desc line = desc := by
  rw [← isPrefixOf_iff_prefix] at hpath hentry
  rw [parseFolderLine, if_neg hpath, parseFolderEntryLine, if_neg hentry, ite_self]

theorem foldl_parseFolderLine (es : List DirEntry) (rest : List UInt8)
    (hes : ∀ e ∈ es, e.Printable) (hfew : desc.entries.length + es.length ≤ maxRootEntries) :
    (starts (es.map entryLine) rest).foldl parseFolderLine desc =
      { desc with entries := desc.entries ++ es } := by
  induction es generalizing desc with
  | nil => simp [starts]
  | cons e es ih =>
    rw [length_cons] at hfew
    rw [map_cons, starts, foldl_cons, joinLines,
      parseFolderLine_entry (hes e mem_cons_self) _ (by omega),
      ih (fun e he => hes e (mem_cons_of_mem _ he)) (by
        rw [length_append, length_singleton]
        omega)]
    simp

/-- **A folder is read back.** -/
theorem parseFolderDesc_print (hd : desc.Printable) (h : printFolderDesc desc = some text)
    (block : ℕ) :
    parseFolderDesc block (Block.ofBytes text).bytes = { desc with blockOffset := block } := by
  have hlen := printFolderDesc_length h hd
  obtain ⟨k, hk⟩ : ∃ k, blockSize - text.length = k + 1 := ⟨blockSize - text.length - 1, by omega⟩
  have hbytes : (Block.ofBytes text).bytes = joinLines (folderLines desc) (0 :: List.replicate k 0) := by
    rw [joinLines_eq_append, ← printFolderDesc_eq h, Block.ofBytes_bytes hlen.le, hk]
    rfl
  have hlines : ∀ l ∈ folderLines desc, IsLine l := fun l hl => hd.isLine hl
  rw [parseFolderDesc, hbytes, lineStarts_joinLines hlines, lineStarts_zero, append_nil,
    folderLines, starts_append, starts_append, foldl_append, foldl_append, starts, starts,
    starts, foldl_cons, foldl_cons, foldl_nil, joinLines,
    parseFolderLine_path hd.path hd.size, joinLines,
    parseFolderLine_other (by simp [ascii]) (by simp [ascii]),
    foldl_parseFolderLine _ _ hd.entries (by simpa using hd.few), starts, starts, foldl_cons,
    foldl_nil, joinLines, parseFolderLine_other (by simp [ascii]) (by simp [ascii])]
  rfl

end MinimalOS.Minimafs
