import Mathlib.Data.Set.Card
import ResultSets.Bitmap.Paste
import ResultSets.Proofs.Bitmap.Members

namespace ResultSets

/-! What pasting a stretch of bits does. The source is read as the maximal runs of set bits
in the stretch, each once, and the members that it has there are added to the destination,
moved to their new place. -/

namespace Span

def Holds (span : Span) (position : Nat) : Prop :=
  span.start ≤ position ∧ position < span.stop

instance (span : Span) (position : Nat) : Decidable (span.Holds position) :=
  inferInstanceAs (Decidable (_ ∧ _))

end Span

namespace BitView

/-! ## Stepping back -/

variable {bit : Nat → Bool} {value : Bool} {start stop position : Nat}

theorem le_skipBack (ordered : start ≤ position) :
    start ≤ skipBack bit value start position := by
  induction position with
  | zero => exact ordered
  | succ position induction =>
      rw [skipBack]
      split
      · next more => exact induction more.1
      · exact ordered

theorem bit_of_skipBack_le {other : Nat} (late : skipBack bit value start position ≤ other)
    (early : other < position) : bit other = value := by
  induction position with
  | zero => cases early
  | succ position induction =>
      rw [skipBack] at late
      split at late
      · next more =>
          rcases Nat.lt_succ_iff_lt_or_eq.mp early with before | rfl
          · exact induction late before
          · exact more.2
      · omega

/-! ## Maximal runs

Stepping back twice finds the last of the maximal runs. Any other one ends before it begins, and
is as maximal there. -/

/-- All bits of the run are set, and it cannot be made longer within `[start, stop)`. -/
structure MaximalRun (bit : Nat → Bool) (start stop : Nat) (run : Span) : Prop where
  late : start ≤ run.start
  proper : run.start < run.stop
  early : run.stop ≤ stop
  set : ∀ position, run.Holds position → bit position = true
  opens : run.start = start ∨ bit (run.start - 1) = false
  closes : run.stop = stop ∨ bit run.stop = false

namespace MaximalRun

variable {run other : Span}

theorem lt_of_lt (maximal : MaximalRun bit start stop run)
    (otherMaximal : MaximalRun bit start stop other) (before : run.start < other.start) :
    run.stop < other.start := by
  apply Nat.lt_of_not_le
  intro reaches
  have inside := maximal.set (other.start - 1) (by unfold Span.Holds; omega)
  rcases otherMaximal.opens with first | clear
  · have := maximal.late
    omega
  · exact Bool.false_ne_true (clear.symm.trans inside)

theorem stop_le_of_start_eq (maximal : MaximalRun bit start stop run)
    (otherMaximal : MaximalRun bit start stop other) (same : run.start = other.start) :
    run.stop ≤ other.stop := by
  apply Nat.le_of_not_lt
  intro longer
  have inside := maximal.set other.stop (by
    have := otherMaximal.proper
    unfold Span.Holds
    omega)
  rcases otherMaximal.closes with last | clear
  · have := maximal.early
    omega
  · exact Bool.false_ne_true (clear.symm.trans inside)

theorem eq_of_start_eq (maximal : MaximalRun bit start stop run)
    (otherMaximal : MaximalRun bit start stop other) (same : run.start = other.start) :
    run = other := by
  have stops := Nat.le_antisymm (maximal.stop_le_of_start_eq otherMaximal same)
    (otherMaximal.stop_le_of_start_eq maximal same.symm)
  cases run
  cases other
  cases same
  cases stops
  rfl

end MaximalRun

theorem maximalRun_skipBack (found : start < skipBack bit false start position) :
    MaximalRun bit start position
      ⟨skipBack bit true start (skipBack bit false start position),
        skipBack bit false start position⟩ := by
  have atMost := skipBack_le bit false start position
  have least : start ≤ skipBack bit true start (skipBack bit false start position) :=
    le_skipBack (Nat.le_of_lt found)
  cases stopped : skipBack bit false start position with
  | zero => omega
  | succ last =>
      rw [stopped] at found atMost least
      have reached : start ≤ last := Nat.le_of_lt_succ found
      have set : bit last = true := by simpa using bit_of_skipBack stopped reached
      refine ⟨least, skipBack_lt reached set, atMost,
        fun position holds => bit_of_skipBack_le holds.1 holds.2, ?_, ?_⟩
      · rcases Nat.eq_or_lt_of_le least with same | above
        · exact .inl same.symm
        · right
          cases opened : skipBack bit true start (last + 1) with
          | zero => omega
          | succ before =>
              rw [opened] at above
              simpa using bit_of_skipBack opened (Nat.le_of_lt_succ above)
      · rcases Nat.eq_or_lt_of_le atMost with same | before
        · exact .inl same
        · exact .inr (bit_of_skipBack_le (Nat.le_of_eq stopped) before)

theorem maximalRun_iff_of_last {last run : Span} (maximal : MaximalRun bit start stop last)
    (clear : ∀ other, last.stop ≤ other → other < stop → bit other = false) :
    MaximalRun bit start stop run ↔ run = last ∨ MaximalRun bit start last.start run := by
  have stretch := maximal.proper
  constructor
  · intro other
    rcases Nat.lt_trichotomy run.start last.start with before | same | behind
    · have apart := other.lt_of_lt maximal before
      refine .inr ⟨other.late, other.proper, Nat.le_of_lt apart, other.set, other.opens, ?_⟩
      right
      rcases other.closes with atEnd | unset
      · have := maximal.early
        omega
      · exact unset
    · exact .inl (other.eq_of_start_eq maximal same)
    · have apart := maximal.lt_of_lt other behind
      have set := other.set run.start ⟨Nat.le_refl _, other.proper⟩
      have unset := clear run.start (Nat.le_of_lt apart)
        (Nat.lt_of_lt_of_le other.proper other.early)
      exact absurd (unset.symm.trans set) Bool.false_ne_true
  · intro either
    rcases either with rfl | earlier
    · exact maximal
    · have atMost := earlier.early
      refine ⟨earlier.late, earlier.proper, ?_, earlier.set, earlier.opens, ?_⟩
      · have := maximal.early
        omega
      · right
        rcases earlier.closes with touching | unset
        · -- A run that touched the last one would make it longer.
          have proper := earlier.proper
          have set := earlier.set (last.start - 1) (by unfold Span.Holds; omega)
          rcases maximal.opens with first | unset
          · have := earlier.late
            omega
          · exact absurd (unset.symm.trans set) Bool.false_ne_true
        · exact unset

theorem mem_runsBack {run : Span} :
    run ∈ runsBack bit start position ↔ MaximalRun bit start position run := by
  fun_induction runsBack bit start position with
  | case1 position found stop first induction =>
      have last := maximalRun_skipBack found
      rw [List.mem_cons, induction,
        maximalRun_iff_of_last last fun other => bit_of_skipBack_le]
  | case2 position nothing =>
      refine iff_of_false List.not_mem_nil fun maximal => ?_
      have set := maximal.set run.start ⟨Nat.le_refl _, maximal.proper⟩
      have ordered := Nat.lt_of_lt_of_le maximal.proper maximal.early
      have reached := maximal.late
      have unset := @bit_of_skipBack_le bit false start position run.start (by omega) ordered
      exact Bool.false_ne_true (unset.symm.trans set)

theorem runsBack_pairwise (bit : Nat → Bool) (start position : Nat) :
    (runsBack bit start position).Pairwise fun later earlier => earlier.stop ≤ later.start := by
  fun_induction runsBack bit start position with
  | case1 position found stop first induction =>
      exact .cons (fun run member => (mem_runsBack.mp member).early) induction
  | case2 => exact .nil

theorem holds_runsBack (other : Nat) :
    (∃ run, run ∈ runsBack bit start position ∧ run.Holds other) ↔
      start ≤ other ∧ other < position ∧ bit other = true := by
  constructor
  · intro held
    rcases held with ⟨run, member, holds⟩
    have maximal := mem_runsBack.mp member
    exact ⟨Nat.le_trans maximal.late holds.1, Nat.lt_of_lt_of_le holds.2 maximal.early,
      maximal.set other holds⟩
  · intro inside
    rcases inside with ⟨late, early, set⟩
    fun_induction runsBack bit start position with
    | case1 position found stop first induction =>
        by_cases before : other < first
        · rcases induction before with ⟨run, member, holds⟩
          exact ⟨run, .tail _ member, holds⟩
        · refine ⟨⟨first, stop⟩, .head _, Nat.le_of_not_lt before, Nat.lt_of_not_le ?_⟩
          intro behind
          have unset := bit_of_skipBack_le behind early
          exact Bool.false_ne_true (unset.symm.trans set)
    | case2 position nothing =>
        have unset := @bit_of_skipBack_le bit false start position other (by omega) early
        exact absurd (unset.symm.trans set) Bool.false_ne_true

/-! ## The runs of a view -/

theorem mem_runs {view : BitView} {run : Span} :
    run ∈ view.runs start stop ↔ MaximalRun view.get start stop run :=
  mem_runsBack

theorem holds_runs (view : BitView) (start stop position : Nat) :
    (∃ run, run ∈ view.runs start stop ∧ run.Holds position) ↔
      start ≤ position ∧ position < stop ∧ view.get position = true :=
  holds_runsBack position

theorem nodup_runs (view : BitView) (start stop : Nat) : (view.runs start stop).Nodup := by
  refine (runsBack_pairwise view.get start stop).imp_of_mem fun laterMember _ before same => ?_
  have proper := (mem_runs.mp laterMember).proper
  rw [same] at before proper
  omega

theorem length_runs (view : BitView) (start stop : Nat) :
    (view.runs start stop).length = {run | MaximalRun view.get start stop run}.ncard := by
  have listed : {run | MaximalRun view.get start stop run} =
      ((view.runs start stop).toFinset : Set Span) := by
    ext run
    rw [Finset.mem_coe, List.mem_toFinset, mem_runs]
    rfl
  rw [listed, Set.ncard_coe_finset, List.toFinset_card_of_nodup (nodup_runs view start stop)]

end BitView

namespace Bitmap

theorem insertRange_eq_ok (bitmap : Bitmap) {start stop : Nat} (ordered : start ≤ stop)
    (inside : stop ≤ bitmap.length) :
    ∃ result, bitmap.insertRange start stop = .ok result ∧ result.length = bitmap.length ∧
      ∀ position, position ∈ result ↔
        (start ≤ position ∧ position < stop) ∨ position ∈ bitmap := by
  rcases (insertRange_isOk_iff bitmap start stop).mpr ⟨ordered, inside⟩ with
    ⟨result, inserted⟩
  refine ⟨result, inserted, length_of_insertRange inserted, fun position => ?_⟩
  change result.contains position = true ↔ _ ∨ bitmap.contains position = true
  rw [contains_of_insertRange inserted, Bool.or_eq_true, Bool.and_eq_true,
    decide_eq_true_eq, decide_eq_true_eq]

private theorem foldlM_insertRange (offset origin : Nat) (runs : List Span) (bitmap : Bitmap)
    (within : ∀ run, run ∈ runs → origin ≤ run.start ∧ run.start ≤ run.stop ∧
      run.stop + offset ≤ bitmap.length + origin) :
    ∃ result,
      runs.foldlM (fun bitmap run =>
        bitmap.insertRange (run.start + offset - origin) (run.stop + offset - origin)) bitmap =
          .ok result ∧
      result.length = bitmap.length ∧
      ∀ position, position ∈ result ↔
        (∃ run, run ∈ runs ∧ offset ≤ position ∧ run.Holds (position - offset + origin)) ∨
          position ∈ bitmap := by
  induction runs generalizing bitmap with
  | nil => exact ⟨bitmap, rfl, rfl, fun position => by simp⟩
  | cons run rest induction =>
      have here := within run (List.mem_cons_self ..)
      have ordered : run.start + offset - origin ≤ run.stop + offset - origin := by omega
      rcases bitmap.insertRange_eq_ok ordered (by omega) with
        ⟨next, inserted, length, members⟩
      rcases induction next (by
        rw [length]
        exact fun other member => within other (List.mem_cons_of_mem run member)) with
        ⟨result, folded, resultLength, resultMembers⟩
      refine ⟨result, ?_, resultLength.trans length, fun position => ?_⟩
      · rw [List.foldlM_cons, inserted]
        exact folded
      · have moved : (run.start + offset - origin ≤ position ∧
            position < run.stop + offset - origin) ↔
              offset ≤ position ∧ run.Holds (position - offset + origin) := by
          unfold Span.Holds
          omega
        simp only [resultMembers, members, moved, List.mem_cons, or_and_right, exists_or,
          exists_eq_left]
        rw [or_left_comm, or_assoc]

theorem paste_eq_ok {destination : Bitmap} {source : BitView} {start stop offset : Nat}
    (ordered : start ≤ stop) (enough : stop ≤ source.length)
    (room : offset + (stop - start) ≤ destination.length) :
    ∃ result, destination.paste source start stop offset =
        .ok (result, (source.runs start stop).length) ∧
      result.length = destination.length ∧
      ∀ position, position ∈ result ↔
        (offset ≤ position ∧ position < offset + (stop - start) ∧
          source.get (start + (position - offset)) = true) ∨ position ∈ destination := by
  rcases foldlM_insertRange offset start (source.runs start stop) destination (by
    intro run member
    have maximal := BitView.mem_runs.mp member
    have early := maximal.early
    refine ⟨maximal.late, Nat.le_of_lt maximal.proper, ?_⟩
    omega) with ⟨result, folded, length, members⟩
  refine ⟨result, ?_, length, fun position => ?_⟩
  · rw [paste, if_neg (by omega), if_neg (by omega), if_neg (by omega)]
    simp only [folded]
    rfl
  · have moved : (∃ run, run ∈ source.runs start stop ∧ offset ≤ position ∧
        run.Holds (position - offset + start)) ↔
        offset ≤ position ∧ position < offset + (stop - start) ∧
          source.get (start + (position - offset)) = true := by
      have runs := BitView.holds_runs source start stop (position - offset + start)
      rw [Nat.add_comm start]
      constructor
      · rintro ⟨run, member, late, holds⟩
        have inside := runs.mp ⟨run, member, holds⟩
        exact ⟨late, by omega, inside.2.2⟩
      · rintro ⟨late, early, set⟩
        rcases runs.mpr ⟨by omega, by omega, set⟩ with ⟨run, member, holds⟩
        exact ⟨run, member, late, holds⟩
    rw [members, moved]

theorem paste_error_iff {destination : Bitmap} {source : BitView} {start stop offset : Nat}
    {error : Error} :
    destination.paste source start stop offset = .error error ↔
      stop < start ∧ error = .sourceReversed start stop ∨
        start ≤ stop ∧ source.length < stop ∧ error = .sourceTooShort stop source.length ∨
          start ≤ stop ∧ stop ≤ source.length ∧ destination.length < offset + (stop - start) ∧
            error = .destinationTooShort offset (stop - start) destination.length := by
  by_cases reversed : stop < start
  · rw [paste, if_pos reversed, Except.error.injEq]
    have disordered : ¬ start ≤ stop := by omega
    simp only [reversed, disordered, true_and, false_and, or_false, eq_comm]
  have ordered := Nat.le_of_not_lt reversed
  by_cases short : source.length < stop
  · rw [paste, if_neg reversed, if_pos short, Except.error.injEq]
    have lacking : ¬ stop ≤ source.length := by omega
    simp only [reversed, ordered, short, lacking, true_and, false_and, false_or, or_false,
      eq_comm]
  have enough := Nat.le_of_not_lt short
  by_cases narrow : destination.length < offset + (stop - start)
  · rw [paste, if_neg reversed, if_neg short, if_pos narrow, Except.error.injEq]
    simp only [reversed, ordered, short, enough, narrow, true_and, false_and, false_or, eq_comm]
  · rcases paste_eq_ok ordered enough (Nat.le_of_not_lt narrow) with ⟨result, pasted, _⟩
    rw [pasted]
    simp only [reversed, short, narrow, reduceCtorEq, false_and, and_false, false_or]

/-- Pasting fails only because of its arguments, with nothing written. Otherwise stepping back
never leaves the stretch, every position of the stretch has its place in the destination, the
bits that are set in the stretch are added there, and the count is that of the maximal runs in
the stretch. -/
theorem paste_moves_runs (destination : Bitmap) (source : BitView) (start stop offset : Nat)
    (addressable : source.length + destination.length < UInt64.size) :
    ((∃ error, destination.paste source start stop offset = .error error) ↔
      stop < start ∨ source.length < stop ∨ destination.length < offset + (stop - start)) ∧
    (UInt64.size ≤ offset + (stop - start) →
      ∃ error, destination.paste source start stop offset = .error error) ∧
    (∀ error, destination.paste source start stop offset = .error error →
      error.isInvalidArgument = true) ∧
    ∀ result count, destination.paste source start stop offset = .ok (result, count) →
      (∀ position, start ≤ position → position ≤ stop →
        (∀ value, start ≤ BitView.skipBack source.get value start position ∧
          BitView.skipBack source.get value start position ≤ position) ∧
        start ≤ position + offset ∧ position + offset < UInt64.size ∧
          position + offset - start ≤ destination.length) ∧
      (∀ run ∈ source.runs start stop,
        start ≤ run.start ∧ run.start < run.stop ∧ run.stop ≤ stop) ∧
      result.length = destination.length ∧
      (∀ position, result.contains position = true ↔
        destination.contains position = true ∨
          offset ≤ position ∧ position < offset + (stop - start) ∧
            source.get (start + (position - offset)) = true) ∧
      count = {run | BitView.MaximalRun source.get start stop run}.ncard := by
  have failing : (∃ error, destination.paste source start stop offset = .error error) ↔
      stop < start ∨ source.length < stop ∨
        destination.length < offset + (stop - start) := by
    simp only [paste_error_iff]
    constructor
    · intro found
      rcases found with ⟨error, ⟨reversed, _⟩ | ⟨_, short, _⟩ | ⟨_, _, narrow, _⟩⟩
      · exact .inl reversed
      · exact .inr (.inl short)
      · exact .inr (.inr narrow)
    · intro wrong
      by_cases reversed : stop < start
      · exact ⟨_, .inl ⟨reversed, rfl⟩⟩
      by_cases short : source.length < stop
      · exact ⟨_, .inr (.inl ⟨by omega, short, rfl⟩)⟩
      · exact ⟨_, .inr (.inr ⟨by omega, by omega, by omega, rfl⟩)⟩
  refine ⟨failing, fun beyond => failing.mpr (by omega), fun error failed => ?_,
    fun result count pasted => ?_⟩
  · rcases paste_error_iff.mp failed with ⟨_, rfl⟩ | ⟨_, _, rfl⟩ | ⟨_, _, _, rfl⟩
    · rfl
    · rfl
    · rfl
  · have possible : ¬ (stop < start ∨ source.length < stop ∨
        destination.length < offset + (stop - start)) := by
      intro wrong
      rcases failing.mpr wrong with ⟨error, failed⟩
      cases pasted.symm.trans failed
    have ordered : start ≤ stop := by omega
    have enough : stop ≤ source.length := by omega
    have room : offset + (stop - start) ≤ destination.length := by omega
    rcases paste_eq_ok ordered enough room with ⟨other, same, length, members⟩
    cases pasted.symm.trans same
    refine ⟨fun position late early => ⟨fun value => ?_, by omega⟩, fun run member => ?_, length,
      fun position => (members position).trans or_comm, BitView.length_runs source start stop⟩
    · exact ⟨BitView.le_skipBack late, BitView.skipBack_le _ _ _ _⟩
    · have maximal := BitView.mem_runs.mp member
      exact ⟨maximal.late, maximal.proper, maximal.early⟩

/-- Three runs of bits, of which a stretch cuts the outer two, move up by one onto a bitmap
that has a member of its own. -/
theorem paste_moves_runs_middle :
    ∃ destination result count,
      ofPositions 10 [9] = .ok destination ∧
      destination.paste
        (BitView.ofFlags #[true, true, false, true, false, false, true, true]) 1 7 2 =
          .ok (result, count) ∧
      result.contains 2 = true ∧ result.contains 3 = false ∧ result.contains 9 = true ∧
      count = {run | BitView.MaximalRun
        (BitView.ofFlags #[true, true, false, true, false, false, true, true]).get 1 7 run}.ncard
      := by
  rcases ofPositions_eq_ok 10 [9] (by decide) with ⟨destination, built, length, _, members⟩
  have addressable : (BitView.ofFlags
      #[true, true, false, true, false, false, true, true]).length + destination.length <
        UInt64.size := by
    rw [length]
    decide
  rcases destination.paste_moves_runs _ 1 7 2 addressable with ⟨failing, _, _, exact⟩
  cases pasted : destination.paste
      (BitView.ofFlags #[true, true, false, true, false, false, true, true]) 1 7 2 with
  | error error =>
      have wrong := failing.mp ⟨error, pasted⟩
      rw [length] at wrong
      exact absurd wrong (by decide)
  | ok outcome =>
      rcases outcome with ⟨result, count⟩
      rcases exact result count pasted with ⟨_, _, _, contains, counted⟩
      refine ⟨destination, result, count, built, pasted, ?_, ?_, ?_, counted⟩
      · exact (contains 2).mpr (.inr (by decide))
      · apply Bool.eq_false_iff.mpr
        intro present
        rcases (contains 3).mp present with own | moved
        · exact absurd ((members 3).mp own) (by decide)
        · exact absurd moved (by decide)
      · exact (contains 9).mpr (.inl ((members 9).mpr (by decide)))

end Bitmap

end ResultSets
