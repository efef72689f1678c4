import MinimalOS.Lib.CString

/-!
# Texts made of lines

A text that is built line by line and read by loops that know only pointers: such a loop visits the
start of each line, and a search from there runs on to the end of the whole text. What a search
finds is therefore said line by line: a byte that the needle does not have keeps what lies before
it apart from what lies behind it.
-/

namespace CString

open List

section Infix

variable {α : Type*} {pat a b : List α} {q : α}

theorem infix_append_cons_iff (hq : q ∉ pat) : pat <:+: a ++ q :: b ↔ pat <:+: a ∨ pat <:+: b := by
  constructor
  · rintro ⟨s, t, h⟩
    rcases append_eq_append_iff.mp h with ⟨a', ha, -⟩ | ⟨c', hc, hb⟩
    · exact .inl ⟨s, a', by rw [ha]⟩
    · rcases append_eq_append_iff.mp hc with ⟨a', rfl, rfl⟩ | ⟨c, rfl, rfl⟩
      · cases c' with
        | nil => exact .inl ⟨s, [], by simp⟩
        | cons x c' =>
          obtain ⟨rfl, -⟩ := List.cons.inj hb
          exact absurd (mem_append_right _ mem_cons_self) hq
      · cases c with
        | nil =>
          cases pat with
          | nil => exact .inl nil_infix
          | cons x pat =>
            obtain ⟨rfl, -⟩ := List.cons.inj hb
            exact absurd mem_cons_self hq
        | cons x c =>
          obtain ⟨-, rfl⟩ := List.cons.inj hb
          exact .inr ⟨c, t, rfl⟩
  · rintro (h | h)
    · exact h.trans (prefix_append _ _).isInfix
    · exact h.trans ((suffix_cons _ _).trans (suffix_append _ _)).isInfix

theorem infix_append_of_head {n : α} (ns b : List α) (hn : n ∉ a) :
    n :: ns <:+: a ++ b ↔ n :: ns <:+: b := by
  induction a with
  | nil => rfl
  | cons x a ih =>
    rw [mem_cons, not_or] at hn
    rw [cons_append, infix_cons_iff, ih hn.2, or_iff_right]
    exact fun h => hn.1 (cons_prefix_cons.mp h).1

theorem prefix_append_cons_iff (hq : q ∉ pat) : pat <+: a ++ q :: b ↔ pat <+: a := by
  refine ⟨fun h => ?_, fun h => h.trans (prefix_append _ _)⟩
  rcases prefix_or_prefix_of_prefix h (prefix_append a (q :: b)) with h' | ⟨c, rfl⟩
  · exact h'
  · cases c with
    | nil => simp
    | cons x c =>
      rw [prefix_append_right_inj] at h
      obtain ⟨rfl, -⟩ := cons_prefix_cons.mp h
      exact absurd (mem_append_right _ mem_cons_self) hq

end Infix

/-! ## Lines -/

/-- What a line may not have. -/
def IsLine (l : List UInt8) : Prop := (0 : UInt8) ∉ l ∧ (10 : UInt8) ∉ l

instance (l : List UInt8) : Decidable (IsLine l) := inferInstanceAs (Decidable (_ ∧ _))

variable {a b s : List UInt8}

theorem IsLine.append (ha : IsLine a) (hb : IsLine b) : IsLine (a ++ b) :=
  ⟨fun h => (mem_append.mp h).elim ha.1 hb.1, fun h => (mem_append.mp h).elim ha.2 hb.2⟩

/-- The lines one behind the other, each with its newline, and then the rest. -/
def joinLines : List (List UInt8) → List UInt8 → List UInt8
  | [], rest => rest
  | l :: ls, rest => l ++ 10 :: joinLines ls rest

def starts : List (List UInt8) → List UInt8 → List (List UInt8)
  | [], _ => []
  | l :: ls, rest => joinLines (l :: ls) rest :: starts ls rest

variable {l pat rest : List UInt8} {ls : List (List UInt8)}

theorem joinLines_append (ls ms : List (List UInt8)) (rest : List UInt8) :
    joinLines (ls ++ ms) rest = joinLines ls (joinLines ms rest) := by
  induction ls with
  | nil => rfl
  | cons l ls ih => rw [cons_append, joinLines, joinLines, ih]

theorem joinLines_eq_append (ls : List (List UInt8)) (rest : List UInt8) :
    joinLines ls rest = joinLines ls [] ++ rest := by
  induction ls with
  | nil => rfl
  | cons l ls ih => rw [joinLines, joinLines, ih, append_assoc, cons_append]

theorem starts_append (ls ms : List (List UInt8)) (rest : List UInt8) :
    starts (ls ++ ms) rest = starts ls (joinLines ms rest) ++ starts ms rest := by
  induction ls with
  | nil => rfl
  | cons l ls ih =>
    rw [cons_append, starts, starts, ih, cons_append, joinLines, joinLines,
      joinLines_append]

theorem lineStarts_joinLines (h : ∀ l ∈ ls, IsLine l) (rest : List UInt8) :
    lineStarts (joinLines ls rest) = starts ls rest ++ lineStarts rest := by
  induction ls with
  | nil => rfl
  | cons l ls ih =>
    obtain ⟨hzero, hnew⟩ := h l mem_cons_self
    rw [joinLines, lineStarts_line _ hzero hnew, ih fun m hm => h m (mem_cons_of_mem _ hm)]
    rfl

theorem cstr_joinLines (h : ∀ l ∈ ls, (0 : UInt8) ∉ l) (rest : List UInt8) :
    cstr (joinLines ls rest) = joinLines ls (cstr rest) := by
  induction ls with
  | nil => rfl
  | cons l ls ih =>
    rw [joinLines, cstr_append _ (h l mem_cons_self), cstr_cons _ (by decide),
      ih fun m hm => h m (mem_cons_of_mem _ hm)]
    rfl

theorem infix_joinLines_iff (hpat : (10 : UInt8) ∉ pat) (ls : List (List UInt8))
    (rest : List UInt8) : pat <:+: joinLines ls rest ↔ (∃ l ∈ ls, pat <:+: l) ∨ pat <:+: rest := by
  induction ls with
  | nil => simp [joinLines]
  | cons l ls ih =>
    rw [joinLines, infix_append_cons_iff hpat, ih]
    simp only [mem_cons, exists_eq_or_imp, or_assoc]

/-- A search finds what it finds in front of a byte that the needle does not have, or else what it
finds behind it. -/
theorem strstr_append_cons {q : UInt8} (hpat : pat ≠ []) (hq : q ∉ pat) (hq0 : q ≠ 0)
    (h0 : (0 : UInt8) ∉ a) :
    strstr pat (a ++ q :: b) = ((strstr pat a).map (· ++ q :: b)).or (strstr pat b) := by
  induction a with
  | nil =>
    rw [nil_append, strstr_step hq0]
    · rfl
    · intro h
      rw [← nil_append (q :: b), prefix_append_cons_iff hq, prefix_nil] at h
      exact hpat h
  | cons x a ih =>
    rw [mem_cons, not_or] at h0
    have hx : x ≠ 0 := Ne.symm h0.1
    by_cases hpre : pat <+: x :: a
    · have hlong : pat <+: x :: (a ++ q :: b) := hpre.trans (prefix_append (x :: a) (q :: b))
      rw [strstr, if_neg hx, if_pos <| isPrefixOf_iff_prefix.mpr hpre, cons_append, strstr,
        if_neg hx, if_pos <| isPrefixOf_iff_prefix.mpr hlong]
      rfl
    · rw [strstr_step hx hpre, cons_append, strstr_step hx, ih h0.2]
      rw [← cons_append, prefix_append_cons_iff hq]
      exact hpre

/-- A line that has newlines of its own is visited at its start and behind each of them. -/
theorem exists_lineStarts (h0 : (0 : UInt8) ∉ a) (b : List UInt8) : ∃ more,
    lineStarts (a ++ 10 :: b) = (a ++ 10 :: b) :: (more ++ lineStarts b) ∧
      ∀ s ∈ more, ∃ k t, a = k ++ 10 :: t ∧ s = t ++ 10 :: b := by
  have hfirst : ∀ a : List UInt8, (0 : UInt8) ∉ a → nonemptyAt (a ++ 10 :: b) = [a ++ 10 :: b] := by
    intro a h0
    cases a with
    | nil => simp [nonemptyAt]
    | cons x a => simp [nonemptyAt, Ne.symm (not_or.mp (mem_cons.not.mp h0)).1]
  have hlater : ∃ more, laterLines (a ++ 10 :: b) = more ++ lineStarts b ∧
      ∀ s ∈ more, ∃ k t, a = k ++ 10 :: t ∧ s = t ++ 10 :: b := by
    induction a with
    | nil => exact ⟨[], by simp [laterLines, lineStarts], by simp⟩
    | cons x a ih =>
      rw [mem_cons, not_or] at h0
      obtain ⟨more, hmore, hs⟩ := ih h0.2
      have hcons : ∀ s ∈ more, ∃ k t, x :: a = k ++ 10 :: t ∧ s = t ++ 10 :: b := fun s h => by
        obtain ⟨k, t, rfl, rfl⟩ := hs s h
        exact ⟨x :: k, t, rfl, rfl⟩
      rw [cons_append, laterLines, if_neg (Ne.symm h0.1), hmore, hfirst a h0.2]
      split_ifs with hx
      · exact ⟨(a ++ 10 :: b) :: more, rfl,
          forall_mem_cons.mpr ⟨⟨[], a, by rw [hx, nil_append], rfl⟩, hcons⟩⟩
      · exact ⟨more, rfl, hcons⟩
  obtain ⟨more, hmore, hs⟩ := hlater
  exact ⟨more, by rw [lineStarts, hfirst a h0, hmore, singleton_append], hs⟩

/-- The pointers into joined lines: each stands at the start of a line or behind a newline that is
part of one. -/
theorem exists_lineStarts_joinLines (h : ∀ l ∈ ls, (0 : UInt8) ∉ l) (rest : List UInt8) :
    ∃ S, lineStarts (joinLines ls rest) = S ++ lineStarts rest ∧
      (ls ≠ [] → joinLines ls rest ∈ S) ∧ ∀ s ∈ S, ∃ t l ms,
        l :: ms <:+ ls ∧ (t = l ∨ ∃ k, l = k ++ 10 :: t) ∧ s = joinLines (t :: ms) rest := by
  induction ls with
  | nil => exact ⟨[], rfl, by simp⟩
  | cons l ls ih =>
    obtain ⟨S, hS, -, hs⟩ := ih fun m hm => h m (mem_cons_of_mem _ hm)
    obtain ⟨more, hmore, ht⟩ := exists_lineStarts (h l mem_cons_self) (joinLines ls rest)
    refine ⟨(l ++ 10 :: joinLines ls rest) :: (more ++ S), ?_, fun _ => mem_cons_self, ?_⟩
    · rw [joinLines, hmore, hS, cons_append, append_assoc]
    · rw [forall_mem_cons, forall_mem_append]
      refine ⟨⟨l, l, ls, suffix_rfl, .inl rfl, rfl⟩, fun s hmem => ?_, fun s hmem => ?_⟩
      · obtain ⟨k, t, hl, rfl⟩ := ht s hmem
        exact ⟨t, l, ls, suffix_rfl, .inr ⟨k, hl⟩, rfl⟩
      · obtain ⟨t, k, ms, hms, hk, rfl⟩ := hs s hmem
        exact ⟨t, k, ms, hms.trans (suffix_cons _ _), hk, rfl⟩

theorem strstr_joinLines_eq_none (hpat : pat ≠ []) (hzero : (0 : UInt8) ∉ pat)
    (hnew : (10 : UInt8) ∉ pat) (hlines : ∀ l ∈ ls, (0 : UInt8) ∉ l ∧ ¬ pat <:+: l)
    (hrest : ¬ pat <:+: cstr rest) : strstr pat (joinLines ls rest) = none := by
  rw [strstr_eq_none_iff hpat hzero, cstr_joinLines fun l hl => (hlines l hl).1,
    infix_joinLines_iff hnew]
  rintro (⟨l, hl, h⟩ | h)
  · exact (hlines l hl).2 h
  · exact hrest h

theorem strstr_line (hpat : (10 : UInt8) ∉ pat) (h0 : (0 : UInt8) ∉ l)
    (hnot : ¬ pat ++ [10] <:+: l ++ [10]) (rest : List UInt8) :
    strstr (pat ++ [10]) (l ++ 10 :: rest) = strstr (pat ++ [10]) rest := by
  have hstep : ∀ s : List UInt8, s <:+ l → ¬ pat ++ [10] <+: s ++ 10 :: rest := by
    rintro s ⟨k, rfl⟩ h
    have hs : s ++ [10] <+: s ++ 10 :: rest := ⟨rest, by simp⟩
    rcases prefix_or_prefix_of_prefix h hs with h' | ⟨t, ht⟩
    · exact hnot (h'.isInfix.trans ⟨k, [], by simp⟩)
    · -- the newline of the line would be one of the needle's
      rcases eq_nil_or_concat t with rfl | ⟨t, x, rfl⟩
      · exact hnot ⟨k, [], by simp [← ht]⟩
      · rw [concat_eq_append, ← append_assoc] at ht
        exact hpat ((append_inj' ht rfl).1 ▸ by simp)
  induction l with
  | nil => exact strstr_step (by decide) (hstep [] suffix_rfl)
  | cons x l ih =>
    rw [mem_cons, not_or] at h0
    refine (strstr_step (Ne.symm h0.1) (hstep (x :: l) suffix_rfl)).trans ?_
    exact ih h0.2 (fun h => hnot (h.trans (suffix_cons x _).isInfix)) fun s hs =>
      hstep s (hs.trans (suffix_cons _ _))

theorem strstr_joinLines (hpat : (10 : UInt8) ∉ pat)
    (hlines : ∀ l ∈ ls, (0 : UInt8) ∉ l ∧ ¬ pat ++ [10] <:+: l ++ [10]) (rest : List UInt8) :
    strstr (pat ++ [10]) (joinLines ls rest) = strstr (pat ++ [10]) rest := by
  induction ls with
  | nil => rfl
  | cons l ls ih =>
    obtain ⟨h0, hnot⟩ := hlines l mem_cons_self
    rw [joinLines, strstr_line hpat h0 hnot, ih fun m hm => hlines m (mem_cons_of_mem _ hm)]

theorem foldl_keep {α β : Type*} {g : β → α → β} {v : β} {l : List α} (h : ∀ y ∈ l, g v y = v) :
    l.foldl g v = v := by
  induction l with
  | nil => rfl
  | cons y l ih =>
    rw [foldl_cons, h y mem_cons_self]
    exact ih fun z hz => h z (mem_cons_of_mem _ hz)

theorem foldl_last {α β : Type*} {g : β → α → β} {x : α} {before after : List α} {v : β} (init : β)
    (hset : ∀ old, g old x = v) (hkeep : ∀ y ∈ after, g v y = v) :
    (before ++ x :: after).foldl g init = v := by
  rw [foldl_append, foldl_cons, hset, foldl_keep hkeep]

end CString
