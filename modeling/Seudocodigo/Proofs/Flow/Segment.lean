import Seudocodigo.Proofs.Flow.Trace
import Seudocodigo.Statement.Flow

/-! Statements executed as they are structured, with the outcome of every test given beforehand. -/
namespace Seudocodigo

/-- What a part of a program records with given outcomes, and the outcomes that it leaves; none if
it waits for one more. -/
structure Segment where
  run : List Bool → List Record × Option (List Bool)
  shrinks : ∀ {outcomes rest}, (run outcomes).2 = some rest → rest.length ≤ outcomes.length

namespace Segment

def actions (as : List Action) : Segment where
  run outcomes := (as.map .action, some outcomes)
  shrinks h := by cases h; exact Nat.le_refl _

def skip : Segment := actions []

def seq (p q : Segment) : Segment where
  run outcomes :=
    match (p.run outcomes).2 with
    | none => p.run outcomes
    | some rest => ((p.run outcomes).1 ++ (q.run rest).1, (q.run rest).2)
  shrinks {outcomes rest} h := by
    cases hp : (p.run outcomes).2 with
    | none =>
      rw [hp] at h
      exact p.shrinks h
    | some left =>
      rw [hp] at h
      exact Nat.le_trans (q.shrinks h) (p.shrinks hp)

def test (condition : List Action) (p q : Segment) : Segment where
  run
    | [] => ([.test condition], none)
    | outcome :: outcomes =>
      let r := (if outcome then p else q).run outcomes
      (.test condition :: r.1, r.2)
  shrinks {outcomes rest} h := by
    cases outcomes with
    | nil => cases h
    | cons outcome outcomes =>
      exact Nat.le_succ_of_le ((if outcome then p else q).shrinks h)

def loopRun (condition : List Action) (body : Segment) :
    List Bool → List Record × Option (List Bool)
  | [] => ([.test condition], none)
  | false :: outcomes => ([.test condition], some outcomes)
  | true :: outcomes =>
    match h : (body.run outcomes).2 with
    | none => (.test condition :: (body.run outcomes).1, none)
    | some rest =>
      have := body.shrinks h
      let r := loopRun condition body rest
      (.test condition :: ((body.run outcomes).1 ++ r.1), r.2)
termination_by outcomes => outcomes.length

theorem loopRun_shrinks (condition : List Action) (body : Segment) {outcomes rest : List Bool}
    (h : (loopRun condition body outcomes).2 = some rest) : rest.length ≤ outcomes.length := by
  induction hl : outcomes.length using Nat.strongRecOn generalizing outcomes with
  | ind len ih =>
    subst hl
    cases outcomes with
    | nil => rw [loopRun] at h; cases h
    | cons outcome outcomes =>
      cases outcome with
      | false => rw [loopRun] at h; cases h; exact Nat.le_succ _
      | true =>
        rw [loopRun] at h
        split at h
        · cases h
        · next left hb =>
          have hle := body.shrinks hb
          have hrest := ih left.length (by simp only [List.length_cons]; omega) h rfl
          simp only [List.length_cons]
          omega

def loop (condition : List Action) (body : Segment) : Segment where
  run := loopRun condition body
  shrinks := loopRun_shrinks condition body

/-- A loop is a test with a turn and the loop behind it, or nothing more. -/
theorem loop_run (condition : List Action) (body : Segment) (outcomes : List Bool) :
    (loop condition body).run outcomes =
      (test condition (body.seq (loop condition body)) skip).run outcomes := by
  cases outcomes with
  | nil => exact loopRun.eq_1 condition body
  | cons outcome outcomes =>
    cases outcome with
    | false => exact loopRun.eq_2 condition body outcomes
    | true =>
      show loopRun condition body (true :: outcomes) = _
      rw [loopRun]
      simp only [test, seq, loop, if_true]
      split
      · next hb => simp only [hb]
      · next hb => simp only [hb]

def left (r : Option (List Bool)) : Nat := (r.map List.length).getD 0

theorem left_le (p : Segment) (outcomes : List Bool) :
    left (p.run outcomes).2 ≤ outcomes.length := by
  cases h : (p.run outcomes).2 with
  | none => exact Nat.zero_le _
  | some rest => exact p.shrinks h

/-- Between two tests the part records at most as much as stated. -/
def Within (w : Nat) (p : Segment) : Prop :=
  ∀ outcomes, (p.run outcomes).1.length + w * left (p.run outcomes).2 ≤ w * outcomes.length + w

namespace Within

variable {v w : Nat} {p q : Segment} {condition : List Action}

theorem actions (as : List Action) : (actions as).Within as.length := by
  intro outcomes
  simp only [Segment.actions, left, Option.map_some, Option.getD_some, List.length_map]
  omega

theorem seq (hp : p.Within v) (hq : q.Within w) : (p.seq q).Within (v + w) := by
  intro outcomes
  have hfirst := hp outcomes
  have hle := p.left_le outcomes
  simp only [Segment.seq, Nat.add_mul]
  cases h : (p.run outcomes).2 with
  | none =>
    simp only [h, left, Option.map_none, Option.getD_none, Nat.mul_zero] at hfirst ⊢
    omega
  | some rest =>
    have hsecond := hq rest
    have hrest := Nat.mul_le_mul_left v (q.left_le rest)
    simp only [h, left, Option.map_some, Option.getD_some] at hfirst hle
    have hall := Nat.mul_le_mul_left w hle
    simp only [List.length_append]
    omega

theorem test (hp : p.Within v) (hq : q.Within w) :
    (test condition p q).Within (v + w + 1) := by
  intro outcomes
  cases outcomes with
  | nil =>
    simp only [Segment.test, left, Option.map_none, Option.getD_none, List.length_cons,
      List.length_nil, Nat.mul_zero]
    omega
  | cons outcome outcomes =>
    simp only [Segment.test, List.length_cons, Nat.add_mul, Nat.mul_add, Nat.one_mul, Nat.mul_one]
    cases outcome with
    | true =>
      have hrun := hp outcomes
      have hle := p.left_le outcomes
      have hother := Nat.mul_le_mul_left w hle
      simp only [if_true]
      omega
    | false =>
      have hrun := hq outcomes
      have hle := q.left_le outcomes
      have hother := Nat.mul_le_mul_left v hle
      simp only [Bool.false_eq_true, if_false]
      omega

/-- The last turn of a loop does not have to end, so a loop records less than a test and its
body. -/
theorem loop_length (condition : List Action) (hp : p.Within w) (outcomes : List Bool) :
    ((loop condition p).run outcomes).1.length + (w + 1) * left ((loop condition p).run outcomes).2
      ≤ (w + 1) * outcomes.length + 1 := by
  induction hl : outcomes.length using Nat.strongRecOn generalizing outcomes with
  | ind len ih =>
    subst hl
    rw [loop_run]
    cases outcomes with
    | nil => simp [Segment.test, left]
    | cons outcome outcomes =>
      cases outcome with
      | false =>
        simp only [Segment.test, skip, Segment.actions, left, Bool.false_eq_true, if_false,
          List.map_nil, Option.map_some, Option.getD_some, List.length_cons, List.length_nil,
          Nat.mul_add, Nat.mul_one]
        omega
      | true =>
        have hturn := hp outcomes
        simp only [Segment.test, Segment.seq, if_true, List.length_cons, Nat.mul_add, Nat.add_mul,
          Nat.one_mul, Nat.mul_one]
        cases h : (p.run outcomes).2 with
        | none =>
          simp only [h, left, Option.map_none, Option.getD_none, Nat.mul_zero] at hturn ⊢
          omega
        | some rest =>
          have hle := p.shrinks h
          have hrest := ih rest.length (by simp only [List.length_cons]; omega) rest rfl
          simp only [h, left, Option.map_some, Option.getD_some] at hturn
          simp only [Nat.add_mul, Nat.one_mul] at hrest
          simp only [List.length_append]
          omega

theorem loop (hp : p.Within w) : (loop condition p).Within (w + 1) := by
  intro outcomes
  have h := loop_length condition hp outcomes
  omega

/-- A turn before the first test does not count twice. -/
theorem seq_loop (hp : p.Within w) : (p.seq (Segment.loop condition p)).Within (w + 1) := by
  intro outcomes
  have hfirst := hp outcomes
  simp only [Segment.seq, Nat.add_mul, Nat.one_mul]
  cases h : (p.run outcomes).2 with
  | none =>
    simp only [h, left, Option.map_none, Option.getD_none, Nat.mul_zero] at hfirst ⊢
    omega
  | some rest =>
    have hle := p.shrinks h
    have hrest := loop_length condition hp rest
    simp only [h, left, Option.map_some, Option.getD_some] at hfirst
    simp only [Nat.add_mul, Nat.one_mul] at hrest
    simp only [List.length_append]
    omega

end Within
end Segment

mutual

/-- A statement as it is structured. A declaration does nothing; `repetir` takes a turn before its
first test and goes on while the test holds; `para` gives the counter its first value and then goes
on like `mientras`. -/
def Statement.segment (s : Signatures) : Statement → Segment
  | .declaration .. => .skip
  | .assignment a => .actions (a.code s)
  | .call c => .actions (c.statementCode s)
  | .result value _ => .actions (value.code s ++ [.result])
  | .conditional condition thenBranch elseBranch _ =>
    .test (condition.code s) (segmentOf s thenBranch) (segmentOf s elseBranch)
  | .whileLoop condition body _ => .loop (condition.code s) (segmentOf s body)
  | .untilLoop body condition _ =>
    (segmentOf s body).seq (.loop (condition.code s ++ [.apply .not]) (segmentOf s body))
  | .counting ⟨start, bound, body, p⟩ =>
    let l : CountingLoop := ⟨start, bound, body, p⟩
    (Segment.actions (start.code s)).seq
      (.loop (l.condition.code s) ((segmentOf s body).seq (.actions (l.increment.code s))))

def segmentOf (s : Signatures) : List Statement → Segment
  | [] => .skip
  | st :: sts => (st.segment s).seq (segmentOf s sts)

end

end Seudocodigo
