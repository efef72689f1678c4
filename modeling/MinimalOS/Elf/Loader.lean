import MinimalOS.Lib.ByteMem

/-!
# The ELF loader of `loader/elfloader.c`

`elf_load_buffer_at` is given a file in memory and copies it into an image that it allocates. The
file is not trusted. Addresses and the numbers in the file's tables have 64 bits and their sums
wrap, so that a pointer into the file or into the image can point anywhere; memory is one array and
a read through such a pointer sees what is there. The log of a load lists, with absolute addresses,
what was read through pointers into the file and what was written.
-/

namespace MinimalOS.Elf

open ByteMem

def elfMaxFileSize : ℕ := 16 * 1024 * 1024
def elfMaxPhnum : ℕ := 64
def elfMaxImageSize : ℕ := 64 * 1024 * 1024

def add64 (a b : ℕ) : ℕ := (a + b) % 2 ^ 64

/-! ## The tables of a file -/

/-- `Elf64_Ehdr`: 64 bytes, of which these are used. -/
structure Ehdr where
  eIdent : List UInt8
  eType : ℕ
  eMachine : ℕ
  eEntry : ℕ
  ePhoff : ℕ
  ePhnum : ℕ

def ehdrAt (m : Mem) (a : ℕ) : Ehdr where
  eIdent := (List.range 16).map fun i => m (a + i)
  eType := readLE m 2 (a + 16)
  eMachine := readLE m 2 (a + 18)
  eEntry := readLE m 8 (a + 24)
  ePhoff := readLE m 8 (a + 32)
  ePhnum := readLE m 2 (a + 56)

/-- `Elf64_Phdr`: 56 bytes. -/
structure Phdr where
  pType : ℕ
  pOffset : ℕ
  pVaddr : ℕ
  pFilesz : ℕ
  pMemsz : ℕ

def phdrAt (m : Mem) (a : ℕ) : Phdr where
  pType := readLE m 4 a
  pOffset := readLE m 8 (a + 8)
  pVaddr := readLE m 8 (a + 16)
  pFilesz := readLE m 8 (a + 32)
  pMemsz := readLE m 8 (a + 40)

def ptLoad : ℕ := 1
def ptDynamic : ℕ := 2

def Phdr.Copies (ph : Phdr) : Prop := ph.pType = ptLoad ∧ ph.pFilesz ≠ 0

instance (ph : Phdr) : Decidable ph.Copies := inferInstanceAs (Decidable (_ ∧ _))

/-- `Elf64_Dyn`: 16 bytes. -/
structure Dyn where
  dTag : ℕ
  dVal : ℕ

def dynAt (m : Mem) (a : ℕ) : Dyn := ⟨readLE m 8 a, readLE m 8 (a + 8)⟩

def dtNull : ℕ := 0
def dtRela : ℕ := 7
def dtRelasz : ℕ := 8
def dtRelaent : ℕ := 9

/-- `Elf64_Rela`: 24 bytes. -/
structure Rela where
  rOffset : ℕ
  rInfo : ℕ
  rAddend : ℕ

def relaAt (m : Mem) (a : ℕ) : Rela := ⟨readLE m 8 a, readLE m 8 (a + 8), readLE m 8 (a + 16)⟩

def Rela.Relative (r : Rela) : Prop := r.rInfo % 2 ^ 32 = 8

instance (r : Rela) : Decidable r.Relative := inferInstanceAs (Decidable (_ = _))

/-! ## Memory and the log -/

inductive Access where
  | file (a len : ℕ)
  | write (a len : ℕ)
  deriving DecidableEq

structure Machine where
  mem : Mem
  trace : List Access

def Machine.readFile (s : Machine) (a len : ℕ) : Machine :=
  { s with trace := s.trace ++ [.file a len] }

/-- `memcpy` out of the file. -/
def Machine.memcpy (s : Machine) (dst src n : ℕ) : Machine where
  mem := copy s.mem dst src n
  trace := s.trace ++ [.file src n, .write dst n]

def Machine.store64 (s : Machine) (a v : ℕ) : Machine where
  mem := writeLE s.mem 8 a v
  trace := s.trace ++ [.write a 8]

def Machine.zero (s : Machine) (a n : ℕ) : Machine where
  mem := fill s.mem a n 0
  trace := s.trace ++ [.write a n]

/-- The block `[p, p + n)` does not reach into `[a, a + len)`. -/
def Apart (a len p n : ℕ) : Prop := p + n ≤ 2 ^ 64 ∧ (p + n ≤ a ∨ a + len ≤ p)

/-- Where the loader is called: the file buffer, the memory around it and the two allocators, which
hand out blocks that are not in use. -/
structure Env where
  mem : Mem
  filebuf : ℕ
  fileSize : ℕ
  alloc : ℕ → Option ℕ
  allocPagesZeroed : ℕ → Option ℕ
  filebuf_end : filebuf + fileSize ≤ 2 ^ 64
  alloc_apart : ∀ n p, alloc n = some p → Apart filebuf fileSize p n
  pages_apart : ∀ n p, allocPagesZeroed n = some p → Apart filebuf fileSize p (n * 0x1000)

/-! ## Checks and the span of the image -/

def Env.ehdr (k : Env) : Ehdr := ehdrAt k.mem k.filebuf

def Env.phdrs (k : Env) (i : ℕ) : ℕ := add64 (add64 k.filebuf k.ehdr.ePhoff) (i * 56)

def headerAccepted (k : Env) : Bool :=
  let eh := k.ehdr
  eh.eIdent.take 4 = [0x7f, 0x45, 0x4c, 0x46] ∧ eh.eIdent.getD 4 0 = 2 ∧ eh.eIdent.getD 5 0 = 1 ∧
    eh.eMachine = 62 ∧ (eh.eType = 2 ∨ eh.eType = 3) ∧
    eh.ePhnum ≠ 0 ∧ eh.ePhnum ≤ elfMaxPhnum ∧
    add64 eh.ePhoff (eh.ePhnum * 56) ≤ k.fileSize

/-- `image_end` and `dynamic_ph` while the program headers are read. -/
structure Span where
  imageEnd : ℕ
  dynamicPh : Option ℕ

def spanStep (m : Mem) (fileSize : ℕ) (sp : Span) (a : ℕ) : Option Span :=
  let ph := phdrAt m a
  if ph.pType = ptDynamic then some { sp with dynamicPh := some a }
  else if ph.pType ≠ ptLoad then some sp
  else if ph.pFilesz > ph.pMemsz then none
  else if add64 ph.pOffset ph.pFilesz > fileSize then none
  else if add64 ph.pVaddr ph.pMemsz < ph.pVaddr then none
  else some { sp with imageEnd := max sp.imageEnd (add64 ph.pVaddr ph.pMemsz) }

/-- The first loop, over the first `n` headers. -/
def span (k : Env) : ℕ → Option Span
  | 0 => some ⟨0, none⟩
  | n + 1 => (span k n).bind fun sp => spanStep k.mem k.fileSize sp (k.phdrs n)

/-- The storage of an image; `size` bytes were allocated for it. -/
structure Image where
  base : ℕ
  pageBacked : Bool
  pageCount : ℕ
  size : ℕ

def allocImage (k : Env) (imageEnd : ℕ) : Option Image :=
  match k.alloc imageEnd with
  | some base => some ⟨base, false, 0, imageEnd⟩
  | none =>
    let pageCount := (imageEnd + 0xFFF) / 0x1000
    (k.allocPagesZeroed pageCount).map fun base => ⟨base, true, pageCount, pageCount * 0x1000⟩

/-- What is settled before the first byte of the image is written. -/
structure Plan where
  imageEnd : ℕ
  dynamicPh : Option ℕ
  image : Image

def plan (k : Env) : Option Plan :=
  if k.filebuf = 0 then none
  else if k.fileSize < 64 ∨ k.fileSize > elfMaxFileSize then none
  else if ¬ headerAccepted k then none
  else (span k k.ehdr.ePhnum).bind fun sp =>
    if sp.imageEnd = 0 ∨ sp.imageEnd > elfMaxImageSize then none
    else if k.ehdr.eEntry ≥ sp.imageEnd then none
    else (allocImage k sp.imageEnd).map fun image => ⟨sp.imageEnd, sp.dynamicPh, image⟩

/-! ## Segments -/

def copySegment (filebuf base : ℕ) (s : Machine) (a : ℕ) : Machine :=
  let ph := phdrAt s.mem a
  if ph.Copies then
    (s.readFile a 56).memcpy (add64 base ph.pVaddr) (add64 filebuf ph.pOffset) ph.pFilesz
  else s.readFile a 56

/-- The second loop, over the first `n` headers. -/
def copySegments (k : Env) (base : ℕ) (s : Machine) : ℕ → Machine
  | 0 => s
  | n + 1 => copySegment k.filebuf base (copySegments k base s n) (k.phdrs n)

/-- The header and the program headers have been read and the image has been zeroed. -/
def allocated (k : Env) (p : Plan) : Machine :=
  Machine.zero
    { mem := k.mem
      trace := .file k.filebuf 64 :: (List.range k.ehdr.ePhnum).map fun i => .file (k.phdrs i) 56 }
    p.image.base p.image.size

def placed (k : Env) (p : Plan) : Machine :=
  copySegments k p.image.base (allocated k p) k.ehdr.ePhnum

/-! ## Relocations -/

/-- `rela_off`, `rela_size` and `rela_ent`. -/
structure RelaTable where
  off : ℕ
  size : ℕ
  ent : ℕ

def RelaTable.note (t : RelaTable) (d : Dyn) : RelaTable :=
  if d.dTag = dtRela then { t with off := d.dVal }
  else if d.dTag = dtRelasz then { t with size := d.dVal }
  else if d.dTag = dtRelaent then { t with ent := d.dVal }
  else t

/-- The loop over the dynamic table, from entry `i` on and over at most `n` entries. -/
def readDynamic (m : Mem) (dyn : ℕ) : ℕ → ℕ → RelaTable → RelaTable
  | 0, _, t => t
  | n + 1, i, t =>
    let d := dynAt m (add64 dyn (i * 16))
    if d.dTag = dtNull then t else readDynamic m dyn n (i + 1) (t.note d)

/-- How many relocations are applied, with the table they are in. -/
def relaTable (k : Env) (p : Plan) : RelaTable × ℕ :=
  let m := (placed k p).mem
  match p.dynamicPh with
  | none => (⟨0, 0, 24⟩, 0)
  | some a =>
    let ph := phdrAt m a
    let t := readDynamic m (add64 p.image.base ph.pVaddr) (ph.pMemsz / 16) 0 ⟨0, 0, 24⟩
    if t.off ≠ 0 ∧ t.size ≠ 0 ∧ 24 ≤ t.ent ∧ add64 t.off t.size ≤ p.imageEnd then
      (t, t.size / t.ent)
    else (t, 0)

def relocate (base runtimeBase : ℕ) (s : Machine) (a : ℕ) : Machine :=
  let r := relaAt s.mem a
  if r.Relative then s.store64 (add64 base r.rOffset) (add64 runtimeBase r.rAddend) else s

def runtimeBase (loadAddress : ℕ) (p : Plan) : ℕ :=
  if loadAddress ≠ 0 then loadAddress else p.image.base

/-- The address of entry `i` of the relocation table. -/
def relaAddr (k : Env) (p : Plan) (i : ℕ) : ℕ :=
  add64 (add64 p.image.base (relaTable k p).1.off) (i * (relaTable k p).1.ent)

/-- The machine after `n` entries of the relocation table. -/
def relocated (k : Env) (loadAddress : ℕ) (p : Plan) : ℕ → Machine
  | 0 => placed k p
  | n + 1 =>
    relocate p.image.base (runtimeBase loadAddress p) (relocated k loadAddress p n) (relaAddr k p n)

/-! ## The loader -/

/-- `elf_loaded_image_t`, with the memory and the log of the load. -/
structure Loaded where
  entryPoint : ℕ
  imageSize : ℕ
  image : Image
  machine : Machine

def elfLoadBufferAt (k : Env) (loadAddress : ℕ) : Option Loaded :=
  (plan k).map fun p =>
    { entryPoint := add64 (runtimeBase loadAddress p) k.ehdr.eEntry
      imageSize := p.imageEnd
      image := p.image
      machine := relocated k loadAddress p (relaTable k p).2 }

end MinimalOS.Elf
