import Mathlib.Tactic

/-!
# What `parse_server_hello` reads

The parser of `impl/net/tls13.c`, over a record buffer whose first `n` bytes were received. It keeps,
next to its result, the place where each of its reads ends. The fields up to the extensions are
checked against the message; the length of the extension block is read and used unchecked, and an
extension is checked against that block only.
-/

namespace MinimalOS.Tls13

/-! ## Computations that keep their reads -/

/-- A value, and where each of the reads it was computed from ends. -/
structure Logged (α : Type) where
  val : α
  reads : List ℕ

instance Logged.instMonad : Monad Logged where
  pure a := ⟨a, []⟩
  bind x f := ⟨(f x.val).val, x.reads ++ (f x.val).reads⟩

namespace Logged

variable {α β : Type}

@[simp]
theorem reads_pure (a : α) : (pure a : Logged α).reads = [] := rfl

@[simp]
theorem reads_bind (x : Logged α) (f : α → Logged β) :
    (x >>= f).reads = x.reads ++ (f x.val).reads := rfl

@[simp]
theorem reads_ite (c : Prop) [Decidable c] (x y : Logged α) :
    (if c then x else y).reads = if c then x.reads else y.reads := apply_ite _ _ _ _

end Logged

/-! ## The parser -/

/-- A byte of a buffer; what lies behind the data is zero. -/
def byteAt (p : List UInt8) (i : ℕ) : ℕ := (p[i]?.getD 0).toNat

def be16 (p : List UInt8) (i : ℕ) : ℕ := byteAt p i * 2 ^ 8 + byteAt p (i + 1)

def be24 (p : List UInt8) (i : ℕ) : ℕ :=
  byteAt p i * 2 ^ 16 + byteAt p (i + 1) * 2 ^ 8 + byteAt p (i + 2)

def helloRetryMagic : List UInt8 := [0xcf, 0x21, 0xad, 0x74, 0xe5, 0x9a, 0x61, 0x11]

variable (p : List UInt8)

abbrev read8 (i : ℕ) : Logged ℕ := ⟨byteAt p i, [i + 1]⟩

abbrev read16 (i : ℕ) : Logged ℕ := ⟨be16 p i, [i + 2]⟩

abbrev read24 (i : ℕ) : Logged ℕ := ⟨be24 p i, [i + 3]⟩

def readBytes (i len : ℕ) : Logged (List UInt8) :=
  ⟨(List.range len).map fun k => UInt8.ofNat (byteAt p (i + k)), [i + len]⟩

theorem reads_readBytes (i len : ℕ) : (readBytes p i len).reads = [i + len] := rfl

/-- The key share at `q`, in the body of an extension of length `l`. -/
def readKeyShare (id l q : ℕ) (key : Option (List UInt8)) : Logged (Option (List UInt8)) :=
  if id = 0x0033 ∧ 36 ≤ l then do
    let group ← read16 p q
    if group = 0x001d then do
      let len ← read16 p (q + 2)
      if len = 32 then do
        let share ← readBytes p (q + 4) 32
        pure (some share)
      else pure key
    else pure key
  else pure key

/-- The extension loop, for at most `n` extensions. -/
def readExtensions (stop : ℕ) : ℕ → ℕ → Option (List UInt8) → Logged (Option (List UInt8))
  | 0, _, _ => pure none
  | n + 1, q, key =>
    if q + 4 ≤ stop then do
      let id ← read16 p q
      let l ← read16 p (q + 2)
      if stop < q + 4 + l then pure none
      else do
        let key ← readKeyShare p id l (q + 4) key
        readExtensions stop n (q + 4 + l) key
    else pure (if q = stop then key else none)

/-- What follows the session id, at `q` of a message that ends at `e`. -/
def readPeer (e q : ℕ) : Logged (Option (List UInt8)) :=
  if e < q + 3 then pure none
  else do
    let suite ← read16 p q
    if suite ≠ 0x1301 then pure none
    else do
      let compression ← read8 p (q + 2)
      if compression ≠ 0 then pure none
      else do
        let ex ← read16 p (q + 3)
        readExtensions p (q + 5 + ex) (ex + 1) (q + 5) none

/-- `parse_server_hello` on a record buffer with `n` bytes received. -/
def parseServerHello (n : ℕ) : Logged (Option (List UInt8 × Option (List UInt8))) :=
  if n < 4 then pure none
  else do
    let type ← read8 p 0
    if type ≠ 2 then pure none
    else do
      let m ← read24 p 1
      if n < m + 4 ∨ m < 38 then pure none
      else do
        let magic ← readBytes p 6 8
        if magic = helloRetryMagic then pure none
        else do
          let msg ← readBytes p 0 (m + 4)
          let _random ← readBytes p 6 32
          let sid ← read8 p 38
          let peer ← readPeer p (m + 4) (38 + 1 + sid)
          pure (some (msg, peer))

/-! ## Inside the message -/

def messageEnd : ℕ := be24 p 1 + 4

/-- Where the extension block starts, if everything before it is accepted. -/
def extensionsAt (n : ℕ) : Option ℕ :=
  let q := 38 + 1 + byteAt p 38
  if 4 ≤ n ∧ byteAt p 0 = 2 ∧ messageEnd p ≤ n ∧ 42 ≤ messageEnd p ∧
      (readBytes p 6 8).val ≠ helloRetryMagic ∧ q + 3 ≤ messageEnd p ∧ be16 p q = 0x1301 ∧
      byteAt p (q + 2) = 0 then some (q + 3)
  else none

/-- The first extension from `q` on that does not end by `e`. -/
def crossing (e q : ℕ) : ℕ :=
  if q + 4 + be16 p (q + 2) ≤ e then crossing e (q + 4 + be16 p (q + 2)) else q
termination_by e - q

theorem crossing_of_lt {e q : ℕ} (h : e < q + 4 + be16 p (q + 2)) : crossing p e q = q := by
  rw [crossing, if_neg (not_le.mpr h)]

/-- As much of the extension at `x` as the key share takes ends by `e`. -/
def ShareInside (e x : ℕ) : Prop :=
  be16 p x = 0x0033 ∧ 36 ≤ be16 p (x + 2) → x + 6 ≤ e ∧
    (be16 p (x + 4) = 0x001d → x + 8 ≤ e ∧ (be16 p (x + 6) = 32 → x + 40 ≤ e))

/-- The extension at `x` ends behind the message, of which the block up to `stop` is said to have
more: it has no header, or its header ends by `e` and it is too long for the block, or the last
one in it. -/
def Stops (stop e x : ℕ) : Prop :=
  stop < x + 4 ∨ x + 4 ≤ e ∧ (stop < x + 4 + be16 p (x + 2) ∨
    stop < x + 8 + be16 p (x + 2) ∧ ShareInside p e x)

theorem reads_readKeyShare (e x : ℕ) (key : Option (List UInt8)) :
    (∀ r ∈ (readKeyShare p (be16 p x) (be16 p (x + 2)) (x + 4) key).reads, r ≤ e) ↔
      ShareInside p e x := by
  unfold readKeyShare ShareInside
  simp only [Logged.reads_ite, Logged.reads_bind, Logged.reads_pure]
  split_ifs <;> simp_all [readBytes]

/-- **The extensions** of a block that ends behind the message. -/
theorem reads_readExtensions {stop e : ℕ} (he : e < stop) {n q : ℕ} (hn : stop < q + n)
    (key : Option (List UInt8)) :
    (∀ r ∈ (readExtensions p stop n q key).reads, r ≤ e) ↔ Stops p stop e (crossing p e q) := by
  induction n generalizing q key with
  | zero =>
    rw [crossing_of_lt p (by omega)]
    exact iff_of_true nofun (.inl (by omega))
  | succ n ih =>
    rw [readExtensions]
    by_cases hq : q + 4 ≤ stop
    · have ih := ih (q := q + 4 + be16 p (q + 2)) (by omega)
        (readKeyShare p (be16 p q) (be16 p (q + 2)) (q + 4) key).val
      rw [if_pos hq]
      simp only [Logged.reads_ite, Logged.reads_bind, Logged.reads_pure, List.cons_append,
        List.nil_append, List.forall_mem_cons]
      by_cases hin : q + 4 + be16 p (q + 2) ≤ e
      · -- an extension inside the message, and so inside the block
        rw [crossing, if_pos hin, ← ih, if_neg (by omega), List.forall_mem_append,
          reads_readKeyShare]
        have hshare : ShareInside p e q := fun h => ⟨by omega, fun _ => ⟨by omega, fun _ => by omega⟩⟩
        exact ⟨fun h => h.2.2.2, fun h => ⟨by omega, by omega, hshare, h⟩⟩
      · have hnext := crossing_of_lt p (e := e) (q := q + 4 + be16 p (q + 2)) (by omega)
        rw [crossing_of_lt p (not_le.mp hin), Stops]
        by_cases hover : stop < q + 4 + be16 p (q + 2)
        · rw [if_pos hover]
          constructor
          · rintro ⟨-, hheader, -⟩
            exact .inr ⟨hheader, .inl hover⟩
          · rintro (hend | ⟨hheader, -⟩)
            · omega
            · exact ⟨by omega, hheader, nofun⟩
        · rw [if_neg hover, List.forall_mem_append, reads_readKeyShare, ih, hnext, Stops]
          constructor
          · rintro ⟨-, hheader, hshare, hend | ⟨hin', -⟩⟩
            · exact .inr ⟨hheader, .inr ⟨by omega, hshare⟩⟩
            · omega
          · rintro (hend | ⟨hheader, hlong | ⟨hend, hshare⟩⟩)
            · omega
            · exact absurd hlong hover
            · exact ⟨by omega, hheader, hshare, .inl (by omega)⟩
    · rw [if_neg hq, crossing_of_lt p (by omega)]
      exact iff_of_true nofun (.inl (by omega))

/-- A block that ends inside the message is read inside it. -/
theorem reads_readExtensions_le {stop e : ℕ} (he : stop ≤ e) (n q : ℕ)
    (key : Option (List UInt8)) : ∀ r ∈ (readExtensions p stop n q key).reads, r ≤ e := by
  induction n generalizing q key with
  | zero => nofun
  | succ n ih =>
    rw [readExtensions]
    simp only [Logged.reads_ite, Logged.reads_bind, Logged.reads_pure]
    split_ifs with hq hover
    · simp
      omega
    · simp only [List.cons_append, List.nil_append, List.forall_mem_cons, List.forall_mem_append,
        reads_readKeyShare]
      have hshare : ShareInside p e q := fun h => ⟨by omega, fun _ => ⟨by omega, fun _ => by omega⟩⟩
      exact ⟨by omega, by omega, hshare, ih _ _⟩
    · nofun

theorem reads_parseServerHello_none {n : ℕ} (h : extensionsAt p n = none) :
    ∀ r ∈ (parseServerHello p n).reads, r ≤ messageEnd p := by
  simp only [extensionsAt, messageEnd] at h ⊢
  unfold parseServerHello readPeer
  simp only [Logged.reads_ite, Logged.reads_bind, Logged.reads_pure, reads_readBytes]
  -- a branch stops behind the check that fails; the last one would have passed them all
  split_ifs <;> simp <;> grind

theorem reads_parseServerHello_some {n q : ℕ} (h : extensionsAt p n = some q) :
    (∀ r ∈ (parseServerHello p n).reads, r ≤ messageEnd p) ↔ q + 2 ≤ messageEnd p ∧
      ∀ r ∈ (readExtensions p (q + 2 + be16 p q) (be16 p q + 1) (q + 2) none).reads,
        r ≤ messageEnd p := by
  simp only [extensionsAt, Option.ite_none_right_eq_some, Option.some.injEq] at h
  obtain ⟨⟨hn, htype, hle, hm, hmagic, hq, hsuite, hcomp⟩, rfl⟩ := h
  unfold messageEnd at *
  unfold parseServerHello readPeer
  simp only [Logged.reads_ite, Logged.reads_bind, Logged.reads_pure, reads_readBytes]
  rw [if_neg (by omega), if_neg (not_not.mpr htype), if_neg (by omega), if_neg hmagic,
    if_neg (by omega), if_neg (not_not.mpr hsuite), if_neg (not_not.mpr hcomp)]
  simp only [List.cons_append, List.nil_append, List.append_nil, List.forall_mem_cons]
  constructor
  · rintro ⟨-, -, -, -, -, -, -, -, hlast⟩
    exact hlast
  · exact fun hlast => ⟨by omega, by omega, by omega, by omega, by omega, by omega, by omega,
      by omega, hlast⟩

/-- **Server hello.** The reads of a server hello lie inside its message exactly when, if its
fields are accepted, the length of the extension block lies there and so does the block, or the
first extension that does not is one at which the loop stops. -/
theorem parseServerHello_inside_iff (n : ℕ) :
    (∀ r ∈ (parseServerHello p n).reads, r ≤ messageEnd p) ↔
      ∀ q, extensionsAt p n = some q → q + 2 ≤ messageEnd p ∧
        (q + 2 + be16 p q ≤ messageEnd p ∨
          Stops p (q + 2 + be16 p q) (messageEnd p) (crossing p (messageEnd p) (q + 2))) := by
  cases h : extensionsAt p n with
  | none => simpa using reads_parseServerHello_none p h
  | some q =>
    rw [reads_parseServerHello_some p h]
    simp only [Option.some.injEq, forall_eq']
    refine and_congr_right fun _ => ?_
    by_cases hstop : q + 2 + be16 p q ≤ messageEnd p
    · exact iff_of_true (reads_readExtensions_le p hstop _ _ _) (.inl hstop)
    · rw [reads_readExtensions p (not_le.mp hstop) (by omega), or_iff_right hstop]

/-- A server hello of 42 bytes that ends behind the compression method. -/
def shortHello : List UInt8 :=
  [2, 0, 0, 38, 3, 3] ++ List.replicate 32 7 ++ [0, 0x13, 0x01, 0]

theorem shortHello_overread : messageEnd shortHello = 42 ∧
    44 ∈ (parseServerHello shortHello shortHello.length).reads := by
  decide

end MinimalOS.Tls13
