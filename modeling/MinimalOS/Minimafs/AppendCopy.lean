import MinimalOS.Minimafs.Append
import MinimalOS.Minimafs.Scan

/-!
# The copy of an append

What a round of the copy does, wherever the copy is: it puts out more, takes the next part or writes
a block, unless a read or the write fails. So the copy comes to its end or to the first transfer that
fails. A block that cannot be read any more keeps it where it is.
-/

namespace MinimalOS.Minimafs

open CString Fs Relation List

variable {env : Env} {p : AppendPlan} {d : Drive} {t : ℕ}

/-! ## Rounds of the copy -/

/-- One round of the copy, with the drive. -/
def CopyRel (env : Env) (p : AppendPlan) (x y : Copying × Drive) : Prop :=
  x.1.i < p.blockCount ∧ copyStep env p x.1 x.2 = (.ok y.1, y.2)

def AppendPlan.wanted (p : AppendPlan) (s : Copying) : ℕ :=
  min (blockSize - s.out.length) (p.oldDataLen - s.reader.dataPos)

/-- In this round the reader of the old data gives less than it is asked for. -/
def ReadFails (env : Env) (p : AppendPlan) (s : Copying) (d : Drive) : Prop :=
  s.i < p.blockCount ∧ s.out.length < blockSize ∧ s.seg = .oldData ∧ s.reader.dataPos < p.oldDataLen ∧
    ∃ got r d', odrRead env s.reader (p.wanted s) d = (.ok (got, r), d') ∧ got.length < p.wanted s

/-- In this round a block cannot be written. -/
def WriteFails (env : Env) (p : AppendPlan) (s : Copying) (d : Drive) : Prop :=
  s.i < p.blockCount ∧ ∃ d', copyStep env p s d = (.error .failed, d')

/-- Where the copy is: how much it has put out, read and written, while every read has succeeded. -/
structure CopyAt (env : Env) (p : AppendPlan) (t : ℕ) (s : Copying) (d : Drive) : Prop where
  blocks : s.i ≤ p.blockCount
  short : s.out.length ≤ 4096
  reader : s.reader.At p s.reader.dataPos
  inside : s.reader.dataPos ≤ p.oldDataLen
  moment : d.moment = t + s.i + p.readCount s.reader.dataPos
  reads : ∀ b, p.oldHeaderSize / 4096 ≤ b → p.blockPos b < s.reader.dataPos → p.ReadOk env t b
  header : s.seg = .header → s.segPos ≤ p.headerSize ∧
    s.i * 4096 + s.out.length = s.segPos ∧ s.reader.dataPos = 0
  oldData : s.seg = .oldData → s.i * 4096 + s.out.length = p.headerSize + s.reader.dataPos
  later : s.seg ≠ .header → s.seg ≠ .oldData → s.reader.dataPos = p.oldDataLen
  ending : s.seg = .footer → s.segPos ≤ 5

def Part.rank : Part → ℕ
  | .header => 5
  | .oldData => 4
  | .newData => 3
  | .footer => 2
  | .done => 1

def AppendPlan.left (p : AppendPlan) (s : Copying) : ℕ :=
  ((p.blockCount * 4096 - (s.i * 4096 + s.out.length)) + (p.blockCount - s.i)) * 8 + s.seg.rank

theorem writeBlock_eq (env : Env) (block : ℕ) (b : Block) (d : Drive) :
    writeBlocks env block [b] d =
      if env.writeOk d.moment block then (.ok ⟨⟩, (d.store block [b]).later (d.moment + 1))
      else (.error .failed, d.later (d.moment + 1)) := by
  unfold writeBlocks
  rw [length_singleton, writeLoop, if_neg (cons_ne_nil _ _), bind_ok moment_run]
  by_cases hok : env.writeOk d.moment block = true
  · rw [bind_ok (require_true hok), if_pos hok]
    rfl
  · rw [bind_error (require_false hok), if_neg hok]

/-- The copy can go on: there is a next round, after which less is left. -/
def GoesOn (env : Env) (p : AppendPlan) (t : ℕ) (s : Copying) (d : Drive) : Prop :=
  ∃ s' d', copyStep env p s d = (.ok s', d') ∧ CopyAt env p t s' d' ∧ p.left s' < p.left s

variable {s : Copying} {y x : Copying × Drive}

theorem oldReadOk_iff {q b : ℕ} (hpos : s.i * 4096 + s.out.length = p.headerSize + q)
    (hlow : q ≤ p.blockPos b) (hhigh : p.blockPos b < q + (4096 - s.out.length)) :
    OldReadOk env p (t + s.i) b ↔ p.ReadOk env t b := by
  have hblock : (p.headerSize + p.blockPos b) / 4096 = s.i := by omega
  show env.readOk (t + s.i + (b - p.oldHeaderSize / 4096)) _ = true ↔
    env.readOk (t + (b - p.oldHeaderSize / 4096) + (p.headerSize + p.blockPos b) / 4096) _ = true
  rw [hblock, Nat.add_right_comm]

section Step

variable {s : Copying} (hx : CopyAt env p t s d) (hi : s.i < p.blockCount)

include hx hi

theorem CopyAt.write (hfull : ¬ (s.out.length < blockSize ∧ s.seg ≠ .done)) :
    GoesOn env p t s d ∨ WriteFails env p s d := by
  have hwritten := writeBlock_eq env (u32 (p.newStart + s.i)) (Block.ofBytes s.out) d
  by_cases hwrite : env.writeOk d.moment (u32 (p.newStart + s.i)) = true
  swap
  · rw [if_neg hwrite] at hwritten
    exact .inr ⟨hi, _, by rw [copyStep, if_neg hfull, bind_error hwritten]⟩
  rw [if_pos hwrite] at hwritten
  left
  have hshort := hx.short
  have hlen : s.seg ≠ .done → s.out.length = 4096 := by
    intro hseg
    have hnot : ¬ s.out.length < 4096 := fun h => hfull ⟨h, hseg⟩
    omega
  have hstep : copyStep env p s d = (.ok { s with i := s.i + 1, out := [] },
      (d.store (u32 (p.newStart + s.i)) [Block.ofBytes s.out]).later (d.moment + 1)) := by
    rw [copyStep, if_neg hfull, bind_ok hwritten]
    rfl
  refine ⟨_, _, hstep, ?_, ?_⟩
  · refine ⟨hi, Nat.zero_le _, hx.reader, hx.inside, ?_, hx.reads, ?_, ?_, hx.later, hx.ending⟩
    · show d.moment + 1 = t + (s.i + 1) + p.readCount s.reader.dataPos
      rw [hx.moment]
      omega
    · intro hseg
      have hseg : s.seg = .header := hseg
      obtain ⟨hpos, hout, hzero⟩ := hx.header hseg
      have hout' : s.i * 4096 + 4096 = s.segPos := by rw [← hout, hlen (by rw [hseg]; decide)]
      refine ⟨hpos, ?_, hzero⟩
      show (s.i + 1) * 4096 + ([] : List UInt8).length = s.segPos
      rw [length_nil, ← hout']
      ring
    · intro hseg
      have hseg : s.seg = .oldData := hseg
      have hout := hx.oldData hseg
      rw [hlen (by rw [hseg]; decide)] at hout
      show (s.i + 1) * 4096 + ([] : List UInt8).length = p.headerSize + s.reader.dataPos
      rw [length_nil, ← hout]
      ring
  · show ((p.blockCount * 4096 - ((s.i + 1) * 4096 + 0)) + (p.blockCount - (s.i + 1))) * 8 + s.seg.rank <
      ((p.blockCount * 4096 - (s.i * 4096 + s.out.length)) + (p.blockCount - s.i)) * 8 + s.seg.rank
    omega

variable {seg : Part} {segPos dataPos2 : ℕ}

omit hx in
theorem left_lt {out : List UInt8} (hshort : out.length ≤ 4096)
    (h : s.out.length < out.length ∧ seg.rank ≤ s.seg.rank ∨
      s.out.length ≤ out.length ∧ seg.rank < s.seg.rank)
    {r : OldDataReader} : p.left ⟨s.i, out, seg, segPos, dataPos2, r⟩ < p.left s := by
  show ((p.blockCount * 4096 - (s.i * 4096 + out.length)) + (p.blockCount - s.i)) * 8 + seg.rank <
    ((p.blockCount * 4096 - (s.i * 4096 + s.out.length)) + (p.blockCount - s.i)) * 8 + s.seg.rank
  omega

variable (hroom : s.out.length < blockSize)

include hroom

omit hx hi hroom in
theorem length_piece {l : List UInt8} {m : ℕ} (hm : m ≤ l.length) (n a : ℕ) :
    ((l.drop a).take (min n (m - a))).length = min n (m - a) := by
  rw [length_take, length_drop]
  omega

omit hroom in
/-- A round that puts out `part` and reads nothing. -/
theorem CopyAt.advance {part : List UInt8}
    (hstep : copyStep env p s d = (.ok ⟨s.i, s.out ++ part, seg, segPos, dataPos2, s.reader⟩, d))
    (hshort : s.out.length + part.length ≤ 4096)
    (hleft : 0 < part.length ∧ seg.rank ≤ s.seg.rank ∨ seg.rank < s.seg.rank)
    (header : seg = .header → segPos ≤ p.headerSize ∧
      s.i * 4096 + (s.out.length + part.length) = segPos ∧ s.reader.dataPos = 0)
    (oldData : seg = .oldData →
      s.i * 4096 + (s.out.length + part.length) = p.headerSize + s.reader.dataPos)
    (later : seg ≠ .header → seg ≠ .oldData → s.reader.dataPos = p.oldDataLen)
    (ending : seg = .footer → segPos ≤ 5) : GoesOn env p t s d := by
  rw [← length_append] at hshort header oldData
  have hlen : (s.out ++ part).length = s.out.length + part.length := length_append
  exact ⟨_, d, hstep, ⟨hx.blocks, hshort, hx.reader, hx.inside, hx.moment, hx.reads, header, oldData,
    later, ending⟩, left_lt hi hshort (by omega)⟩

theorem CopyAt.fillHeader (hseg : s.seg = .header) : GoesOn env p t s d := by
  have hblock : blockSize = 4096 := rfl
  obtain ⟨hpos, hout, hzero⟩ := hx.header hseg
  have hsize : p.headerSize ≤ p.header.length := Nat.mod_le _ _
  have hpiece := length_piece hsize (blockSize - s.out.length) s.segPos
  set cp := min (blockSize - s.out.length) (p.headerSize - s.segPos)
  set part := (p.header.drop s.segPos).take cp
  have hstep : copyStep env p s d = (.ok (if p.headerSize ≤ s.segPos + cp then
      ⟨s.i, s.out ++ part, .oldData, 0, s.dataPos2, s.reader⟩
      else ⟨s.i, s.out ++ part, .header, s.segPos + cp, s.dataPos2, s.reader⟩), d) := by
    rw [copyStep, if_pos ⟨hroom, by rw [hseg]; decide⟩, fill, hseg]
    rfl
  split_ifs at hstep with hend
  · exact hx.advance hi hstep (by omega) (.inr (by rw [hseg]; decide)) nofun (fun _ => by omega)
      nofun nofun
  · exact hx.advance hi hstep (by omega) (.inl ⟨by omega, by rw [hseg]⟩)
      (fun _ => ⟨by omega, by omega, hzero⟩) nofun nofun nofun

theorem CopyAt.fillNewData (hseg : s.seg = .newData) : GoesOn env p t s d := by
  have hblock : blockSize = 4096 := rfl
  have hend : s.reader.dataPos = p.oldDataLen := hx.later (by rw [hseg]; decide) (by rw [hseg]; decide)
  by_cases hdone : p.data.length ≤ s.dataPos2
  · have hstep : copyStep env p s d =
        (.ok ⟨s.i, s.out ++ [], .footer, 0, s.dataPos2, s.reader⟩, d) := by
      rw [copyStep, if_pos ⟨hroom, by rw [hseg]; decide⟩, fill, hseg, append_nil]
      exact congrFun (if_pos hdone) d
    exact hx.advance hi hstep hx.short (.inr (by rw [hseg]; decide)) nofun nofun (fun _ _ => hend)
      fun _ => Nat.zero_le _
  · have hpiece := length_piece le_rfl (l := p.data) (blockSize - s.out.length) s.dataPos2
    set cp := min (blockSize - s.out.length) (p.data.length - s.dataPos2)
    set part := (p.data.drop s.dataPos2).take cp
    have hstep : copyStep env p s d = (.ok (if p.data.length ≤ s.dataPos2 + cp then
        ⟨s.i, s.out ++ part, .footer, 0, s.dataPos2 + cp, s.reader⟩
        else ⟨s.i, s.out ++ part, .newData, s.segPos, s.dataPos2 + cp, s.reader⟩), d) := by
      rw [copyStep, if_pos ⟨hroom, by rw [hseg]; decide⟩, fill, hseg]
      exact congrFun (if_neg hdone) d
    split_ifs at hstep
    · exact hx.advance hi hstep (by omega) (.inr (by rw [hseg]; decide)) nofun nofun
        (fun _ _ => hend) fun _ => Nat.zero_le _
    · exact hx.advance hi hstep (by omega) (.inl ⟨by omega, by rw [hseg]⟩) nofun nofun
        (fun _ _ => hend) nofun

theorem CopyAt.fillFooter (hseg : s.seg = .footer) : GoesOn env p t s d := by
  have hblock : blockSize = 4096 := rfl
  have hend : s.reader.dataPos = p.oldDataLen := hx.later (by rw [hseg]; decide) (by rw [hseg]; decide)
  have hpiece := length_piece (show 5 ≤ footer.length from le_rfl) (blockSize - s.out.length) s.segPos
  set cp := min (blockSize - s.out.length) (5 - s.segPos)
  set part := (footer.drop s.segPos).take cp
  have hstep : copyStep env p s d = (.ok (if 5 ≤ s.segPos + cp then
      ⟨s.i, s.out ++ part, .done, s.segPos + cp, s.dataPos2, s.reader⟩
      else ⟨s.i, s.out ++ part, .footer, s.segPos + cp, s.dataPos2, s.reader⟩), d) := by
    rw [copyStep, if_pos ⟨hroom, by rw [hseg]; decide⟩, fill, hseg]
    rfl
  split_ifs at hstep with hlast
  · exact hx.advance hi hstep (by omega) (.inr (by rw [hseg]; decide)) nofun nofun
      (fun _ _ => hend) nofun
  · exact hx.advance hi hstep (by omega) (.inl ⟨by omega, by rw [hseg]⟩) nofun nofun
      (fun _ _ => hend) fun _ => by omega

omit hi hroom in
theorem CopyAt.oldRead (hsane : p.Sane) :
    ReadsOn env p (t + s.i) s.reader.dataPos (p.wanted s) (odrRead env s.reader (p.wanted s)) d := by
  have hwanted : p.wanted s ≤ p.oldDataLen - s.reader.dataPos := min_le_right _ _
  have hinside := hx.inside
  exact odrLoop_run hsane hx.reader le_rfl (by omega) hx.moment

theorem CopyAt.fillOldData (hsane : p.Sane) (hseg : s.seg = .oldData) :
    GoesOn env p t s d ∨ ReadFails env p s d := by
  have hroom' : s.out.length < 4096 := hroom
  have hrank : s.seg.rank = 4 := by rw [hseg]; rfl
  have hinside := hx.inside
  by_cases hdone : p.oldDataLen ≤ s.reader.dataPos
  · have hstep : copyStep env p s d =
        (.ok ⟨s.i, s.out, .newData, 0, s.dataPos2, s.reader⟩, d) := by
      rw [copyStep, if_pos ⟨hroom, by rw [hseg]; decide⟩, fill, hseg]
      rw [if_pos hdone]
      rfl
    refine .inl ⟨_, d, hstep, ⟨hx.blocks, hx.short, hx.reader, hx.inside, hx.moment, hx.reads, nofun,
      nofun, fun _ _ => le_antisymm hinside hdone, nofun⟩, left_lt hi hx.short (.inr ⟨le_rfl, ?_⟩)⟩
    rw [hrank]
    decide
  obtain ⟨got, r, m, u, hrun, hr, hgot, hm, hreads, ⟨hall, hu⟩ | ⟨hless, -⟩⟩ := hx.oldRead hsane
  swap
  · exact .inr ⟨hi, hroom, hseg, not_le.mp hdone, got, r, _, hrun, by omega⟩
  left
  have hwanted : p.wanted s = min (4096 - s.out.length) (p.oldDataLen - s.reader.dataPos) := rfl
  have hpos := hx.oldData hseg
  have hlen : (s.out ++ got).length = s.out.length + m := by rw [length_append, hgot]
  have hshort : (s.out ++ got).length ≤ 4096 := by omega
  have hr' : r.At p r.dataPos := by rw [hr.dataPos]; exact hr
  have hmoment : (d.later u).moment = t + s.i + p.readCount r.dataPos := by rw [hr.dataPos]; exact hu
  have hread : ∀ b, p.oldHeaderSize / 4096 ≤ b → p.blockPos b < r.dataPos → p.ReadOk env t b := by
    intro b hb hlt
    rw [hr.dataPos] at hlt
    by_cases hold : p.blockPos b < s.reader.dataPos
    · exact hx.reads b hb hold
    · exact (oldReadOk_iff hpos (not_lt.mp hold) (by omega)).mp (hreads b hb (not_lt.mp hold) hlt)
  have hstep : copyStep env p s d = (.ok (if p.oldDataLen ≤ r.dataPos then
      ⟨s.i, s.out ++ got, .newData, 0, s.dataPos2, r⟩
      else ⟨s.i, s.out ++ got, .oldData, s.segPos, s.dataPos2, r⟩), d.later u) := by
    rw [copyStep, if_pos ⟨hroom, by rw [hseg]; decide⟩, fill, hseg]
    rw [if_neg hdone]
    exact bind_ok hrun
  have hrpos := hr.dataPos
  split_ifs at hstep with hend
  · refine ⟨_, _, hstep, ⟨hx.blocks, hshort, hr', ?_, hmoment, hread, nofun, nofun,
      fun _ _ => ?_, nofun⟩, left_lt hi hshort (.inr ⟨by omega, ?_⟩)⟩
    · show r.dataPos ≤ p.oldDataLen
      omega
    · show r.dataPos = p.oldDataLen
      omega
    · rw [hrank]
      decide
  · refine ⟨_, _, hstep, ⟨hx.blocks, hshort, hr', le_of_not_ge hend, hmoment, hread, nofun,
      fun _ => ?_, nofun, nofun⟩, left_lt hi hshort (.inl ⟨by omega, ?_⟩)⟩
    · show s.i * 4096 + (s.out ++ got).length = p.headerSize + r.dataPos
      omega
    · rw [hrank]
      decide

omit hroom in
/-- **A round of the copy.** It gets further unless a read or the write fails. -/
theorem CopyAt.step (hsane : p.Sane) :
    GoesOn env p t s d ∨ ReadFails env p s d ∨ WriteFails env p s d := by
  by_cases hfull : s.out.length < blockSize ∧ s.seg ≠ .done
  · obtain ⟨hroom, hdone⟩ := hfull
    cases hseg : s.seg with
    | header => exact .inl (hx.fillHeader hi hroom hseg)
    | oldData => exact (hx.fillOldData hi hroom hsane hseg).imp_right .inl
    | newData => exact .inl (hx.fillNewData hi hroom hseg)
    | footer => exact .inl (hx.fillFooter hi hroom hseg)
    | done => exact absurd hseg hdone
  · exact (hx.write hi hfull).imp_right .inr

end Step

/-! ## Runs of the copy -/

theorem CopyAt.unread (hx : CopyAt env p t s d) (hsane : p.Sane) (h : ReadFails env p s d) :
    ∃ b, p.Needs b ∧ ¬ p.ReadOk env t b ∧ ∃ got r u,
      odrRead env s.reader (p.wanted s) d = (.ok (got, r), d.later u) ∧
      got.length < p.wanted s ∧ r.At p (p.blockPos b) ∧ p.readMoment t b ≤ u := by
  obtain ⟨hi, hroom, hseg, hdata, got', r', d', hrun', hshort⟩ := h
  obtain ⟨got, r, m, u, hrun, hr, hgot, -, -, hlast⟩ := hx.oldRead hsane
  obtain ⟨rfl, rfl⟩ := Prod.mk.inj (Except.ok.inj (Prod.mk.inj (hrun'.symm.trans hrun)).1)
  have hpos := hx.oldData hseg
  have hwanted : p.wanted s = min (4096 - s.out.length) (p.oldDataLen - s.reader.dataPos) := rfl
  obtain ⟨hall, -⟩ | ⟨hless, b, hb, hblock, hnot, hu⟩ := hlast
  · omega
  have hwhen : p.readMoment t b =
    t + (b - p.oldHeaderSize / 4096) + (p.headerSize + p.blockPos b) / 4096 := rfl
  refine ⟨b, ⟨hb, by omega, ?_⟩, fun hok => hnot ?_, got', r', u, hrun, hshort, hblock ▸ hr, by omega⟩
  · show (p.headerSize + p.blockPos b) / 4096 < p.blockCount
    omega
  · exact (oldReadOk_iff hpos (by omega) (by omega)).mpr hok

theorem CopyAt.readAll (hx : CopyAt env p t s d) (hi : s.i = p.blockCount) {b : ℕ} (hb : p.Needs b) :
    p.ReadOk env t b := by
  refine hx.reads b hb.first ?_
  have hinside := hb.inside
  have hwritten : (p.headerSize + p.blockPos b) / 4096 < p.blockCount := hb.written
  cases hseg : s.seg with
  | header =>
    obtain ⟨hpos, hout, -⟩ := hx.header hseg
    omega
  | oldData =>
    have hpos := hx.oldData hseg
    omega
  | newData | footer | done => rwa [hx.later (by rw [hseg]; decide) (by rw [hseg]; decide)]

/-- How the copy comes to a stop. -/
def CopyStops (env : Env) (p : AppendPlan) (x : Copying × Drive) : Prop :=
  x.1.i = p.blockCount ∨ ReadFails env p x.1 x.2 ∨ WriteFails env p x.1 x.2

theorem CopyAt.reaches (hx : CopyAt env p t s d) (hsane : p.Sane) :
    ∃ y, ReflTransGen (CopyRel env p) (s, d) y ∧ CopyAt env p t y.1 y.2 ∧ CopyStops env p y := by
  refine Descent.exists_reaches (fun y => p.left y.1) (fun y hy hstop => ?_) hx
  have hi : y.1.i < p.blockCount := lt_of_le_of_ne hy.blocks fun h => hstop (.inl h)
  obtain ⟨s', d', hstep, hnext, hless⟩ | hfails := hy.step hi hsane
  · exact ⟨(s', d'), ⟨hi, hstep⟩, hnext, hless⟩
  · exact absurd (.inr hfails) hstop

theorem CopyAt.along (hx : CopyAt env p t s d) (hsane : p.Sane)
    (hreads : ∀ b, p.Needs b → p.ReadOk env t b) (hy : ReflTransGen (CopyRel env p) (s, d) y) :
    CopyAt env p t y.1 y.2 := by
  induction hy with
  | refl => exact hx
  | tail _ hstep ih =>
    obtain ⟨hi, hstep⟩ := hstep
    obtain ⟨s', d', hstep', hnext, -⟩ | hfails | ⟨-, d', hfails⟩ := ih.step hi hsane
    · obtain ⟨hs, hd⟩ := Prod.mk.inj (hstep.symm.trans hstep')
      rw [Except.ok.inj hs, hd]
      exact hnext
    · obtain ⟨b, hb, hnot, -⟩ := ih.unread hsane hfails
      exact absurd (hreads b hb) hnot
    · cases hstep.symm.trans hfails

theorem copyLoop_ends (h : ReflTransGen (CopyRel env p) x y)
    (hy : y.1.i = p.blockCount ∨ WriteFails env p y.1 y.2) :
    ∃ n, (copyLoop env p n x.1 x.2).1 ≠ .error .looping := by
  induction h using ReflTransGen.head_induction_on with
  | refl =>
    obtain hi | ⟨hi, d', hfails⟩ := hy
    · refine ⟨0, ?_⟩
      rw [copyLoop, if_neg (by omega)]
      exact nofun
    · refine ⟨1, ?_⟩
      rw [copyLoop, if_pos hi, bind_error hfails]
      exact nofun
  | head hstep _ ih =>
    obtain ⟨n, hn⟩ := ih
    refine ⟨n + 1, ?_⟩
    rw [copyLoop, if_pos hstep.1, bind_ok hstep.2]
    exact hn

/-! ## A block that cannot be read any more -/

/-- The reader is at a block that can no longer be read. -/
structure Stuck (env : Env) (p : AppendPlan) (s : Copying) (d : Drive) : Prop where
  busy : s.i < p.blockCount
  room : s.out.length < blockSize
  seg : s.seg = .oldData
  reader : s.reader.At p s.reader.dataPos
  inside : s.reader.dataPos < p.oldDataLen
  uncached : (p.oldHeaderSize + s.reader.dataPos) / 4096 ≠ s.reader.cachedBlock
  unread : ∀ u ≥ d.moment, env.readOk u
    (u32 (p.entry.blockOffset + (p.oldHeaderSize + s.reader.dataPos) / 4096)) = false

theorem Stuck.step (h : Stuck env p s d) (hsane : p.Sane) :
    copyStep env p s d = (.ok s, d.later (d.moment + 1)) := by
  have hinside := h.inside
  have hroom : s.out.length < 4096 := h.room
  have hend := hsane (by omega)
  obtain ⟨k, hk⟩ : ∃ k, p.wanted s = k + 1 := by
    refine Nat.exists_eq_succ_of_ne_zero ?_
    show min (4096 - s.out.length) (p.oldDataLen - s.reader.dataPos) ≠ 0
    omega
  have hread : odrRead env s.reader (p.wanted s) d =
      (.ok ([], s.reader), d.later (d.moment + 1)) := by
    have hbusy : ¬ (k + 1 = 0 ∨ s.reader.dataLen ≤ s.reader.dataPos) := by
      rw [h.reader.dataLen]
      omega
    have hfetch := readBlock_eq env
      (u32 (p.entry.blockOffset + (p.oldHeaderSize + s.reader.dataPos) / 4096)) d
    rw [h.unread _ le_rfl] at hfetch
    unfold odrRead
    rw [hk, odrLoop, if_neg hbusy]
    rw [h.reader.fileOffset, u32_eq_self (by omega), h.reader.fileBlock, if_neg h.uncached,
      bind_ok (attempt_failed hfetch)]
    rfl
  obtain ⟨i, out, seg, segPos, dataPos2, r⟩ := s
  obtain rfl : seg = .oldData := h.seg
  rw [copyStep, if_pos ⟨h.room, Part.noConfusion⟩, fill]
  dsimp only
  rw [if_neg (not_le.mpr h.inside)]
  refine (bind_ok hread).trans ?_
  rw [if_neg (not_le.mpr h.inside), append_nil]
  rfl

theorem Stuck.later (h : Stuck env p s d) (ht : d.moment ≤ t) : Stuck env p s (d.later t) :=
  ⟨h.busy, h.room, h.seg, h.reader, h.inside, h.uncached, fun u hu => h.unread u (ht.trans hu)⟩

theorem Stuck.copyLoop (h : Stuck env p s d) (hsane : p.Sane) (n : ℕ) :
    (copyLoop env p n s d).1 = .error .looping := by
  induction n generalizing d with
  | zero =>
    unfold Minimafs.copyLoop
    rw [if_pos h.busy]
    rfl
  | succ n ih =>
    unfold Minimafs.copyLoop
    rw [if_pos h.busy, bind_ok (h.step hsane)]
    exact ih (h.later (Nat.le_succ _))

theorem CopyAt.stuck (hx : CopyAt env p t s d) (hsane : p.Sane) (h : ReadFails env p s d)
    (hlost : ∀ b, p.Needs b → ¬ p.ReadOk env t b → ∀ u ≥ p.readMoment t b,
      env.readOk u (u32 (p.entry.blockOffset + b)) = false) :
    ∃ s' d', copyStep env p s d = (.ok s', d') ∧ Stuck env p s' d' := by
  obtain ⟨b, hneeds, hunread, got, r, u, hrun, hshort, hr, hwhen⟩ := hx.unread hsane h
  obtain ⟨hi, hroom, hseg, hdata, -⟩ := h
  have hinside := hneeds.inside
  have hwanted : p.wanted s ≤ 4096 - s.out.length := min_le_left _ _
  have hmore : ¬ p.oldDataLen ≤ r.dataPos := by rwa [hr.dataPos, not_le]
  have hstep : copyStep env p s d =
      (.ok ⟨s.i, s.out ++ got, .oldData, s.segPos, s.dataPos2, r⟩, d.later u) := by
    rw [copyStep, if_pos ⟨hroom, by rw [hseg]; decide⟩, fill, hseg]
    rw [if_neg (not_le.mpr hdata)]
    refine (bind_ok hrun).trans ?_
    dsimp only
    rw [if_neg hmore]
    rfl
  -- the reader stands where block `b` begins
  have hbegin : (p.oldHeaderSize + r.dataPos) / 4096 = b ∧
      ¬ (0 < r.dataPos ∧ 0 < (p.oldHeaderSize + r.dataPos) % 4096) := by
    have hpos : p.blockPos b = b * 4096 - p.oldHeaderSize := rfl
    have hfirst : p.oldHeaderSize / 4096 ≤ b := hneeds.first
    rw [hr.dataPos]
    omega
  have hsmall := hsane (by omega)
  have hr' : r.At p r.dataPos := by rw [hr.dataPos]; exact hr
  refine ⟨_, _, hstep, hi, ?_, rfl, hr', not_le.mp hmore, fun hcached => ?_, fun v hv => ?_⟩
  · show (s.out ++ got).length < 4096
    rw [length_append]
    omega
  · exact hbegin.2 ((hr'.cached_iff (by omega)).mp hcached)
  · show env.readOk v (u32 (p.entry.blockOffset + (p.oldHeaderSize + r.dataPos) / 4096)) = false
    rw [hbegin.1]
    exact hlost b hneeds hunread v (hwhen.trans hv)

theorem copyLoop_looping (h : ReflTransGen (CopyRel env p) x y)
    (hy : ∀ n, (copyLoop env p n y.1 y.2).1 = .error .looping) (n : ℕ) :
    (copyLoop env p n x.1 x.2).1 = .error .looping := by
  induction h using ReflTransGen.head_induction_on generalizing n with
  | refl => exact hy n
  | head hstep _ ih =>
    cases n with
    | zero =>
      rw [copyLoop, if_pos hstep.1]
      rfl
    | succ n =>
      rw [copyLoop, if_pos hstep.1, bind_ok hstep.2]
      exact ih n

end MinimalOS.Minimafs
