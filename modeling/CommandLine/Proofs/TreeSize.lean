import Mathlib.Algebra.BigOperators.Intervals
import Mathlib.Algebra.BigOperators.Ring.Finset
import Mathlib.Algebra.Order.Interval.Finset.SuccPred
import Mathlib.Data.List.DropRight
import Mathlib.Data.Nat.Factorial.Basic
import Mathlib.Tactic.Ring
import CommandLine.Proofs.OneCommand
import CommandLine.Proofs.Tree.Beginnings

/-!
# The size of a tree

An insertion into an empty tree makes one node for each word and argument of the command. It makes
the nodes of the flag section once more wherever only optional arguments are left, and how many they
are depends on the numbers of required and of optional flags alone: one for each flag beyond the
threshold, and otherwise one for each beginning of an order.

* `orderBeginnings_eq` — the number of these beginnings in closed form;
* `size_of_growFlags`, `size_of_growPath` — the nodes of a flag section and of a path;
* `size_of_one_command` — the size of the tree of one command.
-/

set_option autoImplicit false

namespace CommandLine

open Finset

/-! ## The size of a flag section -/

/-- How many nodes the orders of so many flags have. -/
def orderings (count : Nat) : Nat :=
  ∑ k ∈ Icc 1 count, count.factorial / (count - k).factorial

/-- How many nodes a flag section has under a threshold: a chain one for each flag; orders one for
each order of some required flags, and behind each order of all of them one for each order of some
optional ones. -/
def sectionSize (threshold required optional : Nat) : Nat :=
  if threshold < required + optional then required + optional
  else orderings required + required.factorial * orderings optional

/-- Each of the elements comes first, alone or in front of an order of the others. -/
theorem orderings_succ (count : Nat) :
    orderings (count + 1) = (count + 1) * (orderings count + 1) := by
  have hrange (n : Nat) :
      orderings n = ∑ k ∈ range n, n.factorial / (n - (1 + k)).factorial := by
    rw [orderings, ← Ico_add_one_right_eq_Icc, sum_Ico_eq_sum_range, Nat.add_sub_cancel]
  have hterm (k : Nat) : (count + 1).factorial / (count + 1 - (1 + (k + 1))).factorial =
      (count + 1) * (count.factorial / (count - (1 + k)).factorial) := by
    rw [show count + 1 - (1 + (k + 1)) = count - (1 + k) by omega, Nat.factorial_succ,
      Nat.mul_div_assoc _ (Nat.factorial_dvd_factorial (Nat.sub_le ..))]
  have hfirst : (count + 1).factorial / (count + 1 - (1 + 0)).factorial = count + 1 := by
    rw [Nat.add_zero, Nat.add_sub_cancel, Nat.factorial_succ,
      Nat.mul_div_cancel _ count.factorial_pos]
  rw [hrange, hrange, sum_range_succ', hfirst, sum_congr rfl fun k _ => hterm k, ← mul_sum]
  rfl

theorem orderBeginnings_eq (behind count : Nat) :
    orderBeginnings (behind + 1) count = orderings count + count.factorial * behind + 1 := by
  induction count with
  | zero => simp [orderBeginnings, orderings]
  | succ count ih =>
    rw [orderBeginnings, ih, orderings_succ, Nat.factorial_succ]
    ring

/-- Accepted settings have at most the greatest threshold. -/
theorem Settings.threshold_le (s : Settings) (h : s.validate = .ok ()) :
    s.threshold ≤ greatestThreshold := by
  by_contra hgreater
  have hfault : s.fault? = some (.thresholdTooLarge s.threshold greatestThreshold) :=
    if_pos (Nat.lt_of_not_le hgreater)
  rw [Settings.validate, hfault] at h
  cases h

/-- Under every accepted threshold flag sections stay small, unless there are many flags. -/
theorem sectionSize_le {threshold : Nat} (h : threshold ≤ greatestThreshold)
    (required optional : Nat) :
    sectionSize threshold required optional ≤ max 1956 (required + optional) := by
  have horders : ∀ r < 7, ∀ o < 7, r + o ≤ 6 →
      orderings r + r.factorial * orderings o ≤ 1956 := by decide +kernel
  rw [sectionSize]
  split
  · exact Nat.le_max_right ..
  · rename_i hfew
    have hsmall : required + optional ≤ 6 := (Nat.le_of_not_lt hfew).trans h
    exact (horders required (by omega) optional (by omega) hsmall).trans (Nat.le_max_left ..)

/-! ## The nodes of a command -/

namespace Tree

open CommandLine.Growth

variable {α σ : Type} {t t' : Tree α σ} {i base last : NodeIndex} {c : Command α σ}
  {ps flags : List (Parameter α)} {steps : List (Step α)} {threshold : Nat}

theorem size_shareFlags (child : NodeIndex) (t : Tree α σ) (earlier : List NodeIndex) :
    (earlier.foldl (shareFlag child) t).nodes.size = t.nodes.size := by
  induction earlier generalizing t with
  | nil => rfl
  | cons e earlier ih => exact (ih (t.shareFlag child e)).trans (size_shareFlag child t e)

theorem size_of_growRow (h : growRow i ps t = .ok last t') (hnamed : ∀ p ∈ ps, p.isNamed = true)
    (hi : i < t.nodes.size) (hflags : (t.node i).flags = []) :
    t'.nodes.size = t.nodes.size + ps.length := by
  induction ps generalizing t i with
  | nil =>
    obtain ⟨_, rfl⟩ := EStateM.Result.ok.inj h
    rfl
  | cons p ps ih =>
    obtain ⟨child, t₁, hchild, h⟩ := exists_of_bind_eq_ok h
    rw [ensureParameter_of_vacant (vacant_of_flags_eq_nil hflags (p :: ps))
      (hnamed p List.mem_cons_self)] at hchild
    obtain ⟨rfl, rfl⟩ := EStateM.Result.ok.inj hchild
    rw [ih h (fun q hq => hnamed q (List.mem_cons_of_mem p hq))
      (by rw [size_addFlag]; exact Nat.lt_succ_self _) (flags_addFlag hi p), size_addFlag,
      List.length_cons]
    omega

/-- Linking the flags of a chain makes no nodes. -/
theorem size_of_growChain {earlier : List NodeIndex}
    (h : growChain c base earlier ps t = .ok () t') (hnamed : ∀ p ∈ ps, p.isNamed = true)
    (hnodup : (ps.map Parameter.longName).Nodup)
    (hlt : ∀ e ∈ base :: earlier, e < t.nodes.size)
    (hvacant : ∀ e ∈ base :: earlier, t.Vacant e ps) :
    t'.nodes.size = t.nodes.size + ps.length := by
  induction ps generalizing t earlier with
  | nil =>
    obtain ⟨_, rfl⟩ := EStateM.Result.ok.inj h
    rfl
  | cons p ps ih =>
    obtain ⟨t₁, hlinked, h, hnext⟩ :=
      exists_of_growChain_cons h (hnamed p List.mem_cons_self) hnodup hlt hvacant
    have hsize : t₁.nodes.size = t.nodes.size + 1 := by
      rw [← hlinked, size_shareFlags, bindCommand, size_modifyNode, size_addFlag]
    rw [ih h (fun q hq => hnamed q (List.mem_cons_of_mem p hq)) (List.nodup_cons.mp hnodup).2
      (fun e he => (hnext e he).1) (fun e he => (hnext e he).2), hsize, List.length_cons]
    omega

/-- The nodes of a flag section below a node without flags. -/
theorem size_of_growFlags (h : growFlags c i (.ofFlags threshold flags) t = .ok () t')
    (hnamed : ∀ p ∈ flags, p.isNamed = true) (hnodup : (flags.map Parameter.longName).Nodup)
    (hi : i < t.nodes.size) (hflags : (t.node i).flags = []) :
    t'.nodes.size = t.nodes.size + sectionSize threshold (Parameter.required flags).length
      (Parameter.optionals flags).length := by
  have hlength : (Parameter.required flags).length + (Parameter.optionals flags).length =
      flags.length := by
    rw [← List.length_append]
    exact (Parameter.required_append_optionals_perm flags).length_eq
  rw [FlagPlan.ofFlags] at h
  rw [sectionSize, hlength]
  -- In a chain every flag has one node. Otherwise the nodes are the beginnings of orders.
  by_cases hmany : threshold < flags.length
  · rw [if_pos hmany] at h
    rw [if_pos hmany]
    obtain ⟨base, t₁, hrow, h⟩ := exists_of_bind_eq_ok h
    have hrequired (p : Parameter α) (hp : p ∈ Parameter.required flags) : p.isNamed = true :=
      hnamed p (Parameter.mem_required.mp hp).1
    have hsize₁ := size_of_growRow hrow hrequired hi hflags
    obtain ⟨_, hbase, hfresh⟩ := route_of_growRow hrow hrequired hi hflags
    obtain ⟨_, t₂, hmark, h⟩ := exists_of_bind_eq_ok h
    obtain ⟨_, rfl⟩ := EStateM.Result.ok.inj hmark
    have hsize₂ : (t₁.bindCommand base c).nodes.size = t₁.nodes.size := size_modifyNode ..
    have hlt : base < (t₁.bindCommand base c).nodes.size := hsize₂.symm ▸ hbase
    have hvacant : (t₁.bindCommand base c).Vacant base (Parameter.optionals flags) :=
      vacant_of_flags_eq_nil (by rw [flags_bindCommand, hfresh]) _
    rw [size_of_growChain h (fun p hp => hnamed p (Parameter.mem_optionals.mp hp).1)
      ((List.filter_sublist.map Parameter.longName).nodup hnodup)
      (fun e he => List.mem_singleton.mp he ▸ hlt)
      (fun e he => List.mem_singleton.mp he ▸ hvacant), hsize₂, hsize₁, ← hlength]
    omega
  · rw [if_neg hmany] at h
    rw [if_neg hmany]
    have horders := size_of_growOrders hi hflags (fun order horder p hp =>
      hnamed p ((Parameter.perm_of_mem_flagOrders horder).mem_iff.mp hp)) h
    have hone := orderBeginnings_eq 0 (Parameter.optionals flags).length
    rw [Nat.zero_add, Nat.mul_zero, Nat.add_zero] at hone
    rw [card_beginnings_flagOrders hnodup, hone, orderBeginnings_eq] at horders
    omega

/-- One more step in front adds one to the optional steps at the end if all steps are optional. -/
theorem length_rtakeWhile_cons {β : Type} (p : β → Bool) (x : β) (xs : List β) :
    ((x :: xs).rtakeWhile p).length =
      (xs.rtakeWhile p).length + if (x :: xs).all p then 1 else 0 := by
  rw [List.rtakeWhile, List.rtakeWhile, List.reverse_cons, List.length_reverse, List.length_reverse,
    List.takeWhile_append]
  by_cases hall : xs.all p = true
  · have hself : xs.reverse.takeWhile p = xs.reverse :=
      List.takeWhile_eq_self_iff.mpr fun y hy =>
        List.all_eq_true.mp hall y (List.mem_reverse.mp hy)
    by_cases hx : p x = true
    · simp [hself, hx, hall]
    · simp [hself, hx]
  · have hshort : ¬(xs.reverse.takeWhile p).length = xs.reverse.length := by
      intro hlength
      have hself := (List.takeWhile_prefix p).eq_of_length hlength
      refine hall (List.all_eq_true.mpr fun y hy => ?_)
      exact List.takeWhile_eq_self_iff.mp hself y (List.mem_reverse.mpr hy)
    rw [if_neg hshort]
    simp [hall]

/-- The nodes of a path below a bare node, with a flag section wherever one belongs. -/
theorem size_of_growPath (h : growPath c (.ofFlags threshold flags) i steps t = .ok () t')
    (hnamed : ∀ p ∈ flags, p.isNamed = true) (hnodup : (flags.map Parameter.longName).Nodup)
    (hplace : ∀ p, .parameter p ∈ steps → p.isNamed = false) (hi : i < t.nodes.size)
    (hbare : (t.node i).Bare) :
    t'.nodes.size = t.nodes.size + steps.length +
      ((steps.rtakeWhile Step.isOptional).length + 1) *
        sectionSize threshold (Parameter.required flags).length
          (Parameter.optionals flags).length := by
  induction steps generalizing t i with
  | nil =>
    rw [size_of_growFlags h hnamed hnodup hi hbare.flags]
    simp
  | cons step steps ih =>
    obtain ⟨_, t₁, hflagged, h⟩ := exists_of_bind_eq_ok h
    obtain ⟨child, t₂, hstep, h⟩ := exists_of_bind_eq_ok h
    have hgrows :=
      (changes_grows.growFlagsBefore c i threshold (step :: steps) hnamed).of_ok hflagged
    have hsame :=
      (flagChanges_samePaths.growFlagsBefore c i threshold (step :: steps) hnamed).of_ok hflagged
    obtain ⟨_, hchild, hnext, hsize₂⟩ := ensureStep_of_bare ((hsame i).1.trans hbare.literals)
      ((hsame i).2.trans hbare.arguments) (Nat.lt_of_lt_of_le hi hgrows.size_le)
      (fun p hp => hplace p (hp ▸ List.mem_cons_self)) hstep
    -- A section is grown in front of a step only where the command may already end.
    have hsize₁ : t₁.nodes.size = t.nodes.size + (if (step :: steps).all Step.isOptional then 1
        else 0) * sectionSize threshold (Parameter.required flags).length
          (Parameter.optionals flags).length := by
      rw [growFlagsBefore] at hflagged
      split at hflagged
      · rename_i hall
        rw [size_of_growFlags hflagged hnamed hnodup hi hbare.flags, if_pos hall, Nat.one_mul]
      · rename_i hall
        obtain ⟨_, rfl⟩ := EStateM.Result.ok.inj hflagged
        rw [if_neg hall, Nat.zero_mul, Nat.add_zero]
    rw [ih h (fun p hp => hplace p (List.mem_cons_of_mem step hp)) hchild hnext, hsize₂, hsize₁,
      length_rtakeWhile_cons, List.length_cons]
    ring

/-- **The size of the tree of one command.** A built command can be inserted into an empty tree.
The tree then has a root, a node for each word and argument of the command, and a flag section
behind each place where the line may end before its flags: behind the last of them, and in front of
each optional one of those at the end. Under accepted settings a flag section has at most 1956
nodes, unless there are more flags than that. -/
theorem size_of_one_command (hc : c.Built) (s : Settings) :
    ∃ t : Tree α σ, Growth.insert c (empty s) = .ok () t ∧
      t.nodes.size = 1 + c.positionals.length +
        ((c.positionals.rtakeWhile Step.isOptional).length + 1) *
          sectionSize s.threshold (Parameter.required c.flags).length
            (Parameter.optionals c.flags).length ∧
      (s.validate = .ok () →
        sectionSize s.threshold (Parameter.required c.flags).length
            (Parameter.optionals c.flags).length ≤
          max 1956
            ((Parameter.required c.flags).length + (Parameter.optionals c.flags).length)) := by
  obtain ⟨t, _, hrun, _⟩ := exists_insert_empty hc s
  have hs : c.Sound := hc.sound
  refine ⟨t, hrun, ?_, fun hvalid => sectionSize_le (s.threshold_le hvalid) _ _⟩
  obtain ⟨t', hgrow, rfl⟩ := growCommand_of_insert_ok hrun
  obtain ⟨_, _, hget, hgrow⟩ := exists_of_bind_eq_ok hgrow
  obtain ⟨rfl, rfl⟩ := EStateM.Result.ok.inj hget
  obtain ⟨first, t₁, hfirst, hgrow⟩ := exists_of_bind_eq_ok hgrow
  have hbare : ((empty s : Tree α σ).node root).Bare := ⟨rfl, rfl, rfl⟩
  have hstep : ensureStep c root (.literal c.name) (empty s) = .ok first t₁ := hfirst
  obtain ⟨_, hlt, hnext, hsize⟩ := ensureStep_of_bare hbare.literals hbare.arguments Nat.one_pos
    (fun p hp => by cases hp) hstep
  have hroot : (empty s : Tree α σ).nodes.size = 1 := rfl
  have hpath : t'.nodes.size = t₁.nodes.size + c.path.length +
      ((c.path.rtakeWhile Step.isOptional).length + 1) * sectionSize s.threshold
        (Parameter.required c.flags).length (Parameter.optionals c.flags).length :=
    size_of_growPath hgrow hs.named hs.longNames_nodup hs.unnamed hlt hnext
  -- The first word is a literal, so the optional tail never reaches back to it.
  have hliteral : (.literal c.name :: c.path : List (Step α)).all Step.isOptional = false := rfl
  have htrailing : (c.positionals.rtakeWhile Step.isOptional).length =
      (c.path.rtakeWhile Step.isOptional).length := by
    rw [Command.positionals, length_rtakeWhile_cons, hliteral]
    rfl
  show t'.nodes.size = _
  rw [htrailing, Command.positionals, List.length_cons, hpath, hsize, hroot]
  omega

/-- The tree of a required flag and a switch has the root and the word, and in front of the end of
the line one node for each flag. -/
theorem size_of_one_command_going :
    going.Built ∧ ({} : Settings).validate = .ok () ∧
      ∃ t : Tree Unit Unit, Growth.insert going (empty {}) = .ok () t ∧ t.nodes.size = 4 ∧
        sectionSize ({} : Settings).threshold (Parameter.required going.flags).length
          (Parameter.optionals going.flags).length ≤ 1956 := by
  have hvalid : ({} : Settings).validate = .ok () := by decide
  obtain ⟨t, hrun, hsize, hbound⟩ := size_of_one_command built_going {}
  refine ⟨built_going, hvalid, t, hrun, ?_, (hbound hvalid).trans (by decide)⟩
  rw [hsize]
  decide +kernel

end Tree

end CommandLine
