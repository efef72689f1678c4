import Mathlib.Data.List.Basic
import Mathlib.Tactic

/-!
# Transducers

A machine that takes its input one letter at a time and writes some output for each. The output of
a run does not depend on how the input is cut into pieces (`run_pieces`), and a run can be taken up
in the middle (`run_resume`).
-/

namespace Transducer

open List

variable {σ α β ι : Type}

def run (step : σ → α → List β × σ) : List α → σ → List β × σ
  | [], s => ([], s)
  | a :: as, s =>
    let r := step s a
    let rs := run step as r.2
    (r.1 ++ rs.1, rs.2)

variable {step : σ → α → List β × σ}

@[simp]
theorem run_nil (s : σ) : run step [] s = ([], s) := rfl

theorem run_cons (a : α) (as : List α) (s : σ) :
    run step (a :: as) s =
      ((step s a).1 ++ (run step as (step s a).2).1, (run step as (step s a).2).2) := rfl

theorem run_append (as bs : List α) (s : σ) :
    run step (as ++ bs) s =
      ((run step as s).1 ++ (run step bs (run step as s).2).1,
        (run step bs (run step as s).2).2) := by
  induction as generalizing s with
  | nil => rfl
  | cons a as ih => rw [cons_append, run_cons, ih, run_cons, append_assoc]

theorem length_run {c : ℕ} (hc : ∀ s a, (step s a).1.length = c) (as : List α) (s : σ) :
    (run step as s).1.length = as.length * c := by
  induction as generalizing s with
  | nil => rw [run_nil, length_nil, length_nil, Nat.zero_mul]
  | cons a as ih =>
    rw [run_cons, length_append, hc, ih, length_cons, Nat.succ_mul, Nat.add_comm]

theorem run_resume {c : ℕ} (hc : ∀ s a, (step s a).1.length = c) (as bs : List α) (s : σ) :
    run step bs (run step as s).2 =
      ((run step (as ++ bs) s).1.drop (as.length * c), (run step (as ++ bs) s).2) := by
  rw [run_append, drop_left' (length_run hc as s)]

theorem run_pieces {split : List ι → List α} (hnil : split [] = []) {pieces : List (List ι)}
    (h : ∀ p ∈ pieces, ∀ rest, split (p ++ rest) = split p ++ split rest)
    {stepPiece : σ → List ι → List β × σ}
    (hstep : ∀ p ∈ pieces, ∀ s, stepPiece s p = run step (split p) s) (s : σ) :
    run stepPiece pieces s = run step (split pieces.flatten) s := by
  induction pieces generalizing s with
  | nil => rw [flatten_nil, hnil, run_nil, run_nil]
  | cons p pieces ih =>
    rw [run_cons, hstep p mem_cons_self, ih (fun q hq => h q (mem_cons_of_mem p hq))
      fun q hq => hstep q (mem_cons_of_mem p hq), flatten_cons,
      h p mem_cons_self, run_append]

end Transducer
