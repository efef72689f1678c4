import MinimalOS.Minimafs.Header
import MinimalOS.Minimafs.Volume

/-!
# The volume descriptor is read back

Block 0 is a text of tagged lines. Each tag is searched for in the whole text, so what is read for
a tag is what stands behind its first occurrence. The lines in front of the drive's name are the
program's own. A tag of a later line is found in the name if the name has it, and otherwise in its
own line.
-/

namespace MinimalOS.Minimafs

open CString List

variable {T : String} {sd : StorageDesc} {rest name : List UInt8}

/-! ## The lines of the descriptor -/

def frontFields (sd : StorageDesc) : List (String × List UInt8) :=
  [("MAGIC", uintToStr sd.magic), ("DRIVE_NUMBER", uintToStr sd.driveNumber)]

/-- The flag and the numbers behind the name and the password. -/
def backFields (sd : StorageDesc) : List (String × List UInt8) :=
  [("PASSWORDPROTECTED", boolText sd.passwordProtected),
    ("TOTAL_SIZE_HI", uintToStr (sd.totalSize / 2 ^ 32)), ("TOTAL_SIZE_LO", uintToStr (u32 sd.totalSize)),
    ("USED_SIZE_HI", uintToStr (sd.usedSize / 2 ^ 32)), ("USED_SIZE_LO", uintToStr (u32 sd.usedSize)),
    ("FREE_SIZE_HI", uintToStr (sd.freeSize / 2 ^ 32)), ("FREE_SIZE_LO", uintToStr (u32 sd.freeSize)),
    ("TOTAL_BLOCKS", uintToStr sd.totalBlocks), ("USED_BLOCKS", uintToStr sd.usedBlocks),
    ("FREE_BLOCKS", uintToStr sd.freeBlocks), ("ROOT_BLOCK", uintToStr sd.rootBlock)]

def lastFields (sd : StorageDesc) : List (String × List UInt8) :=
  [("FILESYSTEM_LABEL", quote sd.filesystemLabel), ("CREATEDDATE", quote sd.createdDate),
    ("LASTMOUNTED", quote sd.lastMounted)]

def descFields (sd : StorageDesc) : List (String × List UInt8) :=
  frontFields sd ++ ("DRIVE_NAME", quote sd.driveName) :: ("PASSWORD", quote sd.password) ::
    (backFields sd ++ lastFields sd)

def descTags : List String :=
  ["MAGIC", "DRIVE_NUMBER", "DRIVE_NAME", "PASSWORD", "PASSWORDPROTECTED", "TOTAL_SIZE_HI",
    "TOTAL_SIZE_LO", "USED_SIZE_HI", "USED_SIZE_LO", "FREE_SIZE_HI", "FREE_SIZE_LO", "TOTAL_BLOCKS",
    "USED_BLOCKS", "FREE_BLOCKS", "ROOT_BLOCK", "FILESYSTEM_LABEL", "CREATEDDATE", "LASTMOUNTED"]

theorem map_fst_descFields (sd : StorageDesc) : (descFields sd).map Prod.fst = descTags := rfl

theorem printStorageDesc_eq (sd : StorageDesc) :
    printStorageDesc sd = joinLines ((descFields sd).map fieldLine) (ascii "@END@\n") := by
  have hbare : ∀ (T : String) (v rest : List UInt8), fieldLine (T, v) ++ 10 :: rest =
      tagStart T ++ (v ++ (ascii "@\n" ++ rest)) := by
    intro T v rest
    simp [fieldLine, ascii]
  have hquote : ∀ (T : String) (v rest : List UInt8), fieldLine (T, quote v) ++ 10 :: rest =
      (tagStart T ++ [39]) ++ (v ++ (ascii "'@\n" ++ rest)) := by
    intro T v rest
    simp [fieldLine, ascii, quote]
  unfold printStorageDesc descFields frontFields backFields lastFields
  simp only [cons_append, nil_append, map_cons, map_nil,
    joinLines]
  simp only [hquote, hbare, append_assoc]
  rfl

theorem length_joinLines (ls : List (List UInt8)) (rest : List UInt8) :
    (joinLines ls rest).length = (ls.map fun l => l.length + 1).sum + rest.length := by
  induction ls with
  | nil => simp [joinLines]
  | cons l ls ih =>
    rw [joinLines, length_append, length_cons, map_cons, sum_cons]
    omega

theorem length_uintDigits (n v : ℕ) : (uintDigits n v).length ≤ n := by
  induction n generalizing v with
  | zero => exact le_rfl
  | succ n ih =>
    rw [uintDigits]
    split_ifs
    · exact Nat.zero_le _
    · exact Nat.succ_le_succ (ih _)

structure StorageDesc.Fits (sd : StorageDesc) : Prop where
  texts : ∀ s ∈ [sd.driveName, sd.password, sd.filesystemLabel, sd.createdDate, sd.lastMounted],
    s.length < 64

theorem StorageDesc.Fits.length_le (h : sd.Fits) : ∀ f ∈ descFields sd, f.2.length ≤ 65 := by
  have hnumber : ∀ n, (uintToStr n).length ≤ 65 := by
    intro n
    rw [uintToStr]
    split_ifs
    · decide
    · rw [length_reverse]
      exact (length_uintDigits 20 n).trans (by decide)
  have hflag : ∀ b, (boolText b).length ≤ 65 := by decide
  have hquote : ∀ s : List UInt8, s.length < 64 → (quote s).length ≤ 65 := by
    intro s hs
    simp only [quote, length_cons, length_append, length_nil]
    omega
  have htexts := h.texts
  simp only [forall_mem_cons] at htexts
  obtain ⟨hname, hpassword, hlabel, hcreated, hmounted, -⟩ := htexts
  simp only [descFields, frontFields, backFields, lastFields, cons_append, nil_append,
    forall_mem_cons]
  exact ⟨hnumber _, hnumber _, hquote _ hname, hquote _ hpassword, hflag _, hnumber _, hnumber _,
    hnumber _, hnumber _, hnumber _, hnumber _, hnumber _, hnumber _, hnumber _, hnumber _,
    hquote _ hlabel, hquote _ hcreated, hquote _ hmounted, forall_mem_nil _⟩

theorem StorageDesc.Fits.length_lt (h : sd.Fits) : (printStorageDesc sd).length < blockSize := by
  have hline : ∀ f ∈ descFields sd, (fieldLine f).length + 1 ≤ (ascii f.1).length + 69 := by
    intro f hf
    have := h.length_le f hf
    rw [fieldLine_eq]
    simp only [length_cons, length_append, length_nil]
    omega
  have hsum : ((descFields sd).map fun f => (ascii f.1).length + 69).sum =
      (descTags.map fun T => (ascii T).length + 69).sum := by
    rfl
  calc (printStorageDesc sd).length
      = ((descFields sd).map fun f => (fieldLine f).length + 1).sum + 6 := by
        rw [printStorageDesc_eq, length_joinLines]
        rfl
    _ ≤ ((descFields sd).map fun f => (ascii f.1).length + 69).sum + 6 :=
        Nat.add_le_add_right (sum_le_sum hline) 6
    _ < blockSize := by
        rw [hsum]
        decide

/-! ## Finding a tag -/

theorem tagStart_ne_nil (T : String) : tagStart T ≠ [] := by
  exact cons_ne_nil _ _

theorem IsName.notMem_tagStart (hT : IsName (ascii T)) :
    (0 : UInt8) ∉ tagStart T ∧ (10 : UInt8) ∉ tagStart T := by
  rw [tagStart_eq]
  simp [hT.1.1, hT.1.2]

/-- What can be passed over on the way to a tag. -/
def Passes (T : String) (f : String × List UInt8) : Prop :=
  (0 : UInt8) ∉ fieldLine f ∧ ¬ tagStart T <:+: fieldLine f

variable {fs : List (String × List UInt8)} {w a : List UInt8} {f : String × List UInt8}

theorem strstr_tag_skip (hT : IsName (ascii T)) (hfs : ∀ f ∈ fs, Passes T f) (rest : List UInt8) :
    strstr (tagStart T) (joinLines (fs.map fieldLine) rest) = strstr (tagStart T) rest := by
  induction fs with
  | nil => rfl
  | cons f fs ih =>
    obtain ⟨hzero, hnot⟩ := hfs f mem_cons_self
    have hnone : strstr (tagStart T) (fieldLine f) = none := by
      rw [strstr_eq_none_iff (tagStart_ne_nil T) hT.notMem_tagStart.1, cstr_eq_self hzero]
      exact hnot
    rw [map_cons, joinLines, strstr_append_cons (tagStart_ne_nil T) hT.notMem_tagStart.2
      (by decide) hzero, hnone, ih fun g hg => hfs g (mem_cons_of_mem f hg)]
    rfl

theorem parseTag_skip (hT : IsName (ascii T)) (hfs : ∀ f ∈ fs, Passes T f) (w rest : List UInt8)
    (maxLen : ℕ) :
    parseTag (joinLines (fs.map fieldLine) (fieldLine (T, w) ++ 10 :: rest)) T maxLen =
      parseValue (w ++ 64 :: 10 :: rest) maxLen := by
  rw [parseTag, strstr_tag_skip hT hfs]
  exact parseTag_fieldLine T w rest maxLen

/-! ## What may stand in a descriptor -/

theorem isName_descTag (hT : T ∈ descTags) : IsName (ascii T) ∧ (39 : UInt8) ∉ tagStart T := by
  have hall : ∀ T ∈ descTags, IsName (ascii T) ∧ (39 : UInt8) ∉ tagStart T := by decide
  exact hall T hT

theorem ascii_descTag_ne {S : String} (hS : S ∈ descTags) (hT : T ∈ descTags) (hne : S ≠ T) :
    ascii S ≠ ascii T := by
  have hall : ∀ S ∈ descTags, ∀ T ∈ descTags, ascii S = ascii T → S = T := by decide
  exact fun h => hne (hall S hS T hT h)

/-- What may stand in front of the numbers. The name may have at signs. -/
structure StorageDesc.Printable (sd : StorageDesc) : Prop where
  name : (0 : UInt8) ∉ sd.driveName ∧ (39 : UInt8) ∉ sd.driveName
  password : IsPlain sd.password

theorem IsPlain.quote (h : IsPlain w) : IsPlain (quote w) := by
  simp [Minimafs.quote, IsPlain, h.1, h.2]

theorem isPlain_frontFields (sd : StorageDesc) : ∀ f ∈ frontFields sd, IsPlain f.2 := by
  simp only [frontFields, forall_mem_cons]
  exact ⟨isPlain_uintToStr _, isPlain_uintToStr _, nofun⟩

theorem StorageDesc.Printable.isPlain (h : sd.Printable) :
    ∀ f ∈ ("PASSWORD", Minimafs.quote sd.password) :: backFields sd, IsPlain f.2 := by
  simp only [backFields, forall_mem_cons]
  refine ⟨IsPlain.quote h.password, isPlain_boolText _, ?_⟩
  iterate 10 refine ⟨isPlain_uintToStr _, ?_⟩
  exact nofun

theorem IsPlain.passes (hplain : IsPlain f.2) (hf : f.1 ∈ descTags) (hT : T ∈ descTags)
    (hne : f.1 ≠ T) : Passes T f := by
  refine ⟨noZero_fieldLine (isName_descTag hf).1 hplain.1, ?_⟩
  rw [tagStart_infix_fieldLine_iff (isName_descTag hT).1 (isName_descTag hf).1
    (ascii_descTag_ne hT hf (Ne.symm hne))]
  intro h
  exact hplain.2 (h.subset (by rw [tagStart_eq]; exact mem_cons_self))

theorem passes_driveName (hzero : (0 : UInt8) ∉ name) (hT : T ∈ descTags) (hne : "DRIVE_NAME" ≠ T)
    (hnot : ¬ tagStart T <:+: name) : Passes T ("DRIVE_NAME", quote name) := by
  have hname : "DRIVE_NAME" ∈ descTags := by decide
  refine ⟨noZero_fieldLine (isName_descTag hname).1 (by simp [quote, hzero]), ?_⟩
  rw [tagStart_infix_fieldLine_iff (isName_descTag hT).1 (isName_descTag hname).1
    (ascii_descTag_ne hT hname (Ne.symm hne))]
  have hsplit : quote name = [] ++ 39 :: (name ++ 39 :: []) := rfl
  rw [hsplit, infix_append_cons_iff (isName_descTag hT).2, infix_append_cons_iff (isName_descTag hT).2]
  have hnil : ¬ tagStart T <:+: [] := fun h => tagStart_ne_nil T (infix_nil.mp h)
  rintro (h | h | h)
  · exact hnil h
  · exact hnot h
  · exact hnil h

/-! ## Tags in the lines they belong to -/

theorem front_passes (sd : StorageDesc) (hT : T ∈ descTags) (hmagic : "MAGIC" ≠ T)
    (hnumber : "DRIVE_NUMBER" ≠ T) : ∀ f ∈ frontFields sd, Passes T f := by
  have hplain := isPlain_frontFields sd
  simp only [frontFields, forall_mem_cons] at hplain ⊢
  exact ⟨hplain.1.passes (show "MAGIC" ∈ descTags by decide) hT hmagic,
    hplain.2.1.passes (show "DRIVE_NUMBER" ∈ descTags by decide) hT hnumber, nofun⟩

theorem parseTag_back (hsd : sd.Printable) (hmem : (T, w) ∈ backFields sd)
    (hnot : ¬ tagStart T <:+: sd.driveName) (rest : List UInt8) :
    ∃ rest', ∀ maxLen, parseTag (joinLines ((descFields sd).map fieldLine) rest) T maxLen =
      parseValue (w ++ 64 :: 10 :: rest') maxLen := by
  obtain ⟨pre, post, hback⟩ := append_of_mem hmem
  have hfields : descFields sd = (frontFields sd ++ ("DRIVE_NAME", quote sd.driveName) ::
      ("PASSWORD", quote sd.password) :: pre) ++ (T, w) :: (post ++ lastFields sd) := by
    rw [descFields, hback]
    simp
  have hnames := map_fst_descFields sd
  have hT : T ∈ descTags := by
    rw [← hnames, hfields]
    simp
  have hnodup : (descTags).Nodup := by decide
  rw [← hnames, hfields, map_append, nodup_append] at hnodup
  have hne : ∀ f ∈ frontFields sd ++ ("DRIVE_NAME", quote sd.driveName) ::
      ("PASSWORD", quote sd.password) :: pre, f.1 ≠ T := fun f hf =>
    hnodup.2.2 _ (mem_map_of_mem hf) _ (by simp)
  have hpass : ∀ f ∈ frontFields sd ++ ("DRIVE_NAME", quote sd.driveName) ::
      ("PASSWORD", quote sd.password) :: pre, Passes T f := by
    intro f hf
    have hin : f.1 ∈ descTags := by
      rw [← hnames, hfields]
      exact mem_map_of_mem (mem_append_left _ hf)
    rcases mem_append.mp hf with hfront | hrest
    · exact (isPlain_frontFields sd f hfront).passes hin hT (hne f hf)
    · rcases mem_cons.mp hrest with rfl | hlater
      · exact passes_driveName hsd.name.1 hT (hne _ hf) hnot
      · refine (hsd.isPlain f ?_).passes hin hT (hne f hf)
        rw [hback]
        exact mem_append_left ((T, w) :: post) hlater
  refine ⟨joinLines ((post ++ lastFields sd).map fieldLine) rest, fun maxLen => ?_⟩
  rw [hfields, map_append, joinLines_append]
  exact parseTag_skip (isName_descTag hT).1 hpass w _ maxLen

theorem parseTagUint64_eq (line : List UInt8) (T : String) :
    parseTagUint64 line T = (parseTag line T 32).elim 0 parseNumber := by
  unfold parseTagUint64
  cases parseTag line T 32 <;> rfl

theorem parseValue_uintToStr {n : ℕ} (h : n < 2 ^ 64) (rest : List UInt8) :
    (parseValue (uintToStr n ++ 64 :: 10 :: rest) 32).elim 0 parseNumber = n := by
  have hread := readNumber_uintToStr rest "MAGIC" h 0
  rwa [readNumber, if_pos (strstr_fieldLine _ _ _), parseTagUint64_eq, parseTag_fieldLine] at hread

/-! ## Tags in the name -/

theorem strchr_append_of_mem {c : UInt8} (b : List UInt8) (h0 : (0 : UInt8) ∉ a) (hc : c ∈ a) :
    ∃ stop, strchr c a = some stop ∧ strchr c (a ++ b) = some (stop ++ b) := by
  induction a with
  | nil => cases hc
  | cons x a ih =>
    rw [mem_cons, not_or] at h0
    rw [cons_append, strchr, strchr, if_neg (Ne.symm h0.1), if_neg (Ne.symm h0.1)]
    by_cases hx : x = c
    · rw [if_pos hx, if_pos hx]
      exact ⟨_, rfl, rfl⟩
    · rw [if_neg hx, if_neg hx]
      exact ih h0.2 ((mem_cons.mp hc).resolve_left (Ne.symm hx))

theorem parseValue_append (b : List UInt8) (h0 : (0 : UInt8) ∉ a) (hat : (64 : UInt8) ∈ a)
    (hquote : a.head? ≠ some 39) (maxLen : ℕ) :
    parseValue (a ++ b) maxLen = parseValue a maxLen := by
  have hhead : (a ++ b).head? = a.head? := by
    cases a with
    | nil => cases hat
    | cons x a => rfl
  obtain ⟨stop, hstop, hstop'⟩ := strchr_append_of_mem b h0 hat
  obtain ⟨front, rfl, -⟩ := strchr_eq_some hstop
  rw [parseValue, parseValue, hhead, if_neg hquote, if_neg hquote, hstop, hstop', Option.map_some,
    Option.map_some]
  unfold cutAt
  have hlen : (front ++ stop ++ b).length - (stop ++ b).length =
      (front ++ stop).length - stop.length := by
    simp only [length_append]
    omega
  rw [hlen, take_append_of_le_length]
  split_ifs <;> omega

/-- The number read for a tag whose own line, behind the name, has `v`. -/
def numberRead (name : List UInt8) (T : String) (v : ℕ) : ℕ :=
  if tagStart T <:+: name then parseTagUint64 (name ++ ascii "'@") T else v

theorem parseTagUint64_name (hsd : sd.Printable) (hT : T ∈ descTags) (hmagic : "MAGIC" ≠ T)
    (hnumber : "DRIVE_NUMBER" ≠ T) (hname : "DRIVE_NAME" ≠ T) (h : tagStart T <:+: sd.driveName)
    (rest : List UInt8) :
    parseTagUint64 (joinLines ((descFields sd).map fieldLine) rest) T =
      parseTagUint64 (sd.driveName ++ ascii "'@") T := by
  obtain ⟨hzero, hquote⟩ := hsd.name
  obtain ⟨hTname, hTquote⟩ := isName_descTag hT
  obtain ⟨r, hr⟩ : ∃ r, strstr (tagStart T) sd.driveName = some r := by
    refine Option.ne_none_iff_exists'.mp fun hnone => ?_
    rw [strstr_eq_none_iff (tagStart_ne_nil T) hTname.notMem_tagStart.1, cstr_eq_self hzero] at hnone
    exact hnone h
  obtain ⟨a, ha, -, v, rfl⟩ := strstr_eq_some hr
  have hsuffix : _ <:+ _ := ⟨a, ha.symm⟩
  have hv0 : (0 : UInt8) ∉ v := fun hm => hzero (hsuffix.subset (mem_append_right _ hm))
  have hv39 : (39 : UInt8) ∉ v := fun hm => hquote (hsuffix.subset (mem_append_right _ hm))
  have hfind : ∀ b, strstr (tagStart T) (sd.driveName ++ 39 :: b) =
      some (tagStart T ++ (v ++ 39 :: b)) := by
    intro b
    rw [strstr_append_cons (tagStart_ne_nil T) hTquote (by decide) hzero, hr]
    simp
  -- behind the name the password's line begins
  set tail := sd.password ++ 39 :: 64 :: 10 ::
    joinLines ((backFields sd ++ lastFields sd).map fieldLine) rest with htail
  have htext : joinLines ((descFields sd).map fieldLine) rest =
      joinLines ((frontFields sd).map fieldLine) (tagStart "DRIVE_NAME" ++ 39 ::
        (sd.driveName ++ 39 :: (64 :: 10 :: tagStart "PASSWORD" ++ 39 :: tail))) := by
    rw [descFields, map_append, joinLines_append, htail]
    simp [joinLines, fieldLine, quote]
  have hown : strstr (tagStart T) (tagStart "DRIVE_NAME") = none := by
    rw [strstr_eq_none_iff (tagStart_ne_nil T) hTname.notMem_tagStart.1]
    intro hin
    have hpass : Passes T ("DRIVE_NAME", []) :=
      IsPlain.passes (by decide) (by decide) hT hname
    exact hpass.2 (hin.trans (infix_append [] (tagStart "DRIVE_NAME") [64]))
  rw [parseTagUint64_eq, parseTagUint64_eq, htext, parseTag, parseTag,
    strstr_tag_skip hTname (front_passes sd hT hmagic hnumber),
    strstr_append_cons (tagStart_ne_nil T) hTquote (by decide) (by decide), hown, Option.map_none,
    Option.none_or, hfind, show ascii "'@" = 39 :: [64] from rfl, hfind, Option.bind_some,
    Option.bind_some, drop_left, drop_left]
  cases v with
  | nil =>
    -- the value is quoted: it is the text up to the password's opening quote, without a digit
    have hvalue : parseValue (quote (64 :: 10 :: tagStart "PASSWORD") ++ tail) 32 =
        some (64 :: 10 :: tagStart "PASSWORD") := by
      have hsplit : quote (64 :: 10 :: tagStart "PASSWORD") ++ tail =
          39 :: ((64 :: 10 :: tagStart "PASSWORD") ++ 39 :: tail) := by simp [quote]
      rw [hsplit, parseValue, if_pos (by rfl), tail_cons, strchr_append _ (by decide) (by decide)
        (by decide), Option.map_some, cutAt_append _ _ (by decide)]
    have hsplit : [] ++ 39 :: (64 :: 10 :: tagStart "PASSWORD" ++ 39 :: tail) =
        quote (64 :: 10 :: tagStart "PASSWORD") ++ tail := by simp [quote]
    rw [hsplit, hvalue]
    decide
  | cons x v =>
    have hsplit : x :: v ++ 39 :: (64 :: 10 :: tagStart "PASSWORD" ++ 39 :: tail) =
        (x :: v ++ 39 :: [64]) ++ (10 :: tagStart "PASSWORD" ++ 39 :: tail) := by simp
    have hplain : (0 : UInt8) ∉ x :: v ++ 39 :: [64] := fun hm =>
      (mem_append.mp hm).elim hv0 (by decide)
    rw [hsplit, parseValue_append _ hplain (by simp)]
    intro hx
    exact hv39 (mem_of_head? hx)

theorem parseTagUint64_back (hsd : sd.Printable) {v : ℕ} (hv : v < 2 ^ 64)
    (hmem : (T, uintToStr v) ∈ backFields sd) (rest : List UInt8) :
    parseTagUint64 (joinLines ((descFields sd).map fieldLine) rest) T =
      numberRead sd.driveName T v := by
  rw [numberRead]
  split_ifs with hname
  · have hback : T ∈ (backFields sd).map Prod.fst := mem_map_of_mem hmem
    have hall : ∀ T ∈ (backFields sd).map Prod.fst,
        T ∈ descTags ∧ "MAGIC" ≠ T ∧ "DRIVE_NUMBER" ≠ T ∧ "DRIVE_NAME" ≠ T := by
      show ∀ T ∈ (descTags.drop 4).take 11, _
      decide
    obtain ⟨hT, hmagic, hnumber, hdrive⟩ := hall T hback
    exact parseTagUint64_name hsd hT hmagic hnumber hdrive hname rest
  · obtain ⟨rest', hrest⟩ := parseTag_back hsd hmem hname rest
    rw [parseTagUint64_eq, hrest, parseValue_uintToStr hv]

/-! ## The name -/

theorem parseTag_driveName (sd : StorageDesc) (rest : List UInt8) :
    ∃ rest', ∀ maxLen, parseTag (joinLines ((descFields sd).map fieldLine) rest) "DRIVE_NAME" maxLen =
      parseValue (quote sd.driveName ++ 64 :: 10 :: rest') maxLen := by
  refine ⟨joinLines ((("PASSWORD", quote sd.password) :: (backFields sd ++ lastFields sd)).map
    fieldLine) rest,
    fun maxLen => ?_⟩
  exact parseTag_skip (isName_descTag (by decide)).1
    (front_passes sd (by decide) (by decide) (by decide)) _ _ maxLen

theorem parseValue_quoted {s : List UInt8} {maxLen : ℕ} (hpos : 0 < maxLen)
    (h : parseValue (39 :: s) maxLen = some w) : w.length < maxLen ∧ (39 : UInt8) ∉ w := by
  rw [parseValue, tail_cons] at h
  obtain ⟨stop, hstop, rfl⟩ := Option.map_eq_some_iff.mp h
  obtain ⟨front, rfl, -, hfront, -⟩ := strchr_eq_some hstop
  unfold cutAt
  rw [length_append]
  constructor
  · rw [length_take]
    split_ifs <;> omega
  · intro hm
    refine hfront ?_
    rw [take_append_of_le_length (by split_ifs <;> omega)] at hm
    exact mem_of_mem_take hm

/-! ## The descriptor that is read -/

theorem bytes_printStorageDesc (hlen : (printStorageDesc sd).length < blockSize) :
    ∃ rest, (Block.ofBytes (printStorageDesc sd)).bytes =
      joinLines ((descFields sd).map fieldLine) rest := by
  refine ⟨ascii "@END@\n" ++ List.replicate (blockSize - (printStorageDesc sd).length) 0, ?_⟩
  rw [joinLines_eq_append, ← append_assoc, ← joinLines_eq_append, ← printStorageDesc_eq]
  exact Block.ofBytes_bytes hlen.le

def sizeRead (name : List UInt8) (size : ℕ) : ℕ :=
  numberRead name "TOTAL_SIZE_HI" (size / 2 ^ 32) * 2 ^ 32 % 2 ^ 64 |||
    numberRead name "TOTAL_SIZE_LO" (u32 size)

/-- **The descriptor is read back** up to the tags that stand in the name. -/
theorem parseStorageDesc_print (hsd : sd.Printable) (hname : sd.driveName.length < 64)
    (hlen : (printStorageDesc sd).length < blockSize) (hmagic : sd.magic < 2 ^ 32)
    (hsize : sd.totalSize < 2 ^ 64) (hblocks : sd.totalBlocks < 2 ^ 64)
    (hroot : sd.rootBlock < 2 ^ 64) {p : StorageDesc}
    (hp : p = parseStorageDesc (Block.ofBytes (printStorageDesc sd)).bytes) :
    p.magic = sd.magic ∧ p.driveName = sd.driveName ∧
      p.totalBlocks = u32 (numberRead sd.driveName "TOTAL_BLOCKS" sd.totalBlocks) ∧
      p.rootBlock = u32 (numberRead sd.driveName "ROOT_BLOCK" sd.rootBlock) ∧
      p.totalSize = sizeRead sd.driveName sd.totalSize := by
  obtain ⟨rest, hbytes⟩ := bytes_printStorageDesc hlen
  rw [hbytes] at hp
  subst hp
  refine ⟨?_, ?_, ?_, ?_, ?_⟩
  · show u32 (parseTagUint64 _ "MAGIC") = _
    have hfirst : parseTag (joinLines ((descFields sd).map fieldLine) rest) "MAGIC" 32 =
        parseValue (uintToStr sd.magic ++
          64 :: 10 :: joinLines ((descFields sd).tail.map fieldLine) rest) 32 :=
      parseTag_fieldLine "MAGIC" _ _ 32
    rw [parseTagUint64_eq, hfirst, parseValue_uintToStr (hmagic.trans (by decide))]
    exact Nat.mod_eq_of_lt hmagic
  · show (parseTag _ "DRIVE_NAME" 64).getD [] = _
    obtain ⟨rest', hread⟩ := parseTag_driveName sd rest
    rw [hread, parseValue_quote hsd.name.1 hsd.name.2 hname, Option.getD_some]
  · show u32 (parseTagUint64 _ "TOTAL_BLOCKS") = _
    rw [parseTagUint64_back hsd hblocks (by simp [backFields])]
  · show u32 (parseTagUint64 _ "ROOT_BLOCK") = _
    rw [parseTagUint64_back hsd hroot (by simp [backFields])]
  · show (parseTagUint64 _ "TOTAL_SIZE_HI" * 2 ^ 32) % 2 ^ 64 ||| parseTagUint64 _ "TOTAL_SIZE_LO" = _
    rw [parseTagUint64_back hsd (v := sd.totalSize / 2 ^ 32) (by omega) (by simp [backFields]),
      parseTagUint64_back hsd (v := u32 sd.totalSize) ((Nat.mod_lt _ (by decide)).trans (by decide))
        (by simp [backFields])]
    rfl

theorem driveName_parseStorageDesc (hlen : (printStorageDesc sd).length < blockSize) :
    (parseStorageDesc (Block.ofBytes (printStorageDesc sd)).bytes).driveName.length < 64 ∧
      (39 : UInt8) ∉ (parseStorageDesc (Block.ofBytes (printStorageDesc sd)).bytes).driveName := by
  obtain ⟨rest, hbytes⟩ := bytes_printStorageDesc hlen
  obtain ⟨rest', hread⟩ := parseTag_driveName sd rest
  have hvalue : (parseStorageDesc (Block.ofBytes (printStorageDesc sd)).bytes).driveName =
      (parseValue (quote sd.driveName ++ 64 :: 10 :: rest') 64).getD [] := by
    rw [hbytes, ← hread]
    rfl
  rw [hvalue]
  cases h : parseValue (quote sd.driveName ++ 64 :: 10 :: rest') 64 with
  | none => exact ⟨by decide, by decide⟩
  | some w => exact parseValue_quoted (by decide) h

end MinimalOS.Minimafs
