import Xv6.Mp

/-! The walk of `mpinit` through the configuration table. At an entry of unknown type the loop stays where it is, so it
    ends exactly if it meets none. -/

namespace Xv6.Mp
open Lib

/-- The size of an entry, by its type. -/
def entrySize : Nat → Option Nat
  | 0 => some 20
  | 1 | 2 | 3 | 4 => some 8
  | _ => none

/-- The walk from `p` to the end `e` of the table comes to an entry of unknown type. -/
inductive MeetsUnknown (m : Mem) (e : Addr) : Addr → Prop
  | here {p : Addr} (hp : p < e) (h : entrySize (m p).toNat = none) : MeetsUnknown m e p
  | next {p : Addr} {k : Nat} (hp : p < e) (h : entrySize (m p).toNat = some k)
    (hrest : MeetsUnknown m e (p + BitVec.ofNat 32 k)) :
    MeetsUnknown m e p

section
variable {m : Mem} {e : Addr} {s : Walk} {k n : Nat}

theorem entrySize_bounds {t : Nat} (h : entrySize t = some k) : 0 < k ∧ k ≤ 20 := by
  unfold entrySize at h
  split at h
  all_goals
    cases h
    try decide

/-! ### One round -/

theorem addCpu_ncpu_le {g : Globals} (h : g.ncpu ≤ ncpuMax) (apicid : Byte) : (g.addCpu apicid).ncpu ≤ ncpuMax := by
  unfold Globals.addCpu
  split
  · rename_i hlt
    exact hlt
  · exact h

theorem addCpu_ismp (g : Globals) (apicid : Byte) : (g.addCpu apicid).ismp = g.ismp := by
  unfold Globals.addCpu
  split <;> rfl

theorem round_ncpu_le (h : s.g.ncpu ≤ ncpuMax) : (round m s).g.ncpu ≤ ncpuMax := by
  unfold round
  split
  · exact addCpu_ncpu_le h _
  all_goals exact h

theorem round_known (h : entrySize (m s.p).toNat = some k) :
    (round m s).p = s.p + BitVec.ofNat 32 k ∧ (round m s).g.ismp = s.g.ismp := by
  unfold round
  generalize (m s.p).toNat = t at h
  unfold entrySize at h
  split at h
  · cases h
    exact ⟨rfl, addCpu_ismp ..⟩
  · cases h
    exact ⟨rfl, rfl⟩
  · cases h
    exact ⟨rfl, rfl⟩
  · cases h
    exact ⟨rfl, rfl⟩
  · cases h
    exact ⟨rfl, rfl⟩
  · cases h

theorem round_unknown (h : entrySize (m s.p).toNat = none) : round m s = ⟨s.p, { s.g with ismp := false }⟩ := by
  unfold round
  generalize (m s.p).toNat = t at h
  unfold entrySize at h
  split at h
  · cases h
  · cases h
  · cases h
  · cases h
  · cases h
  · split
    all_goals first | rfl | contradiction

/-! ### The loop -/

theorem rounds_ncpu_le (h : s.g.ncpu ≤ ncpuMax) (n : Nat) : (rounds m e n s).g.ncpu ≤ ncpuMax := by
  induction n generalizing s with
  | zero => exact h
  | succ n ih =>
    rw [rounds]
    split
    · exact ih (round_ncpu_le h)
    · exact h

theorem rounds_unknown (hp : s.p < e) (h : entrySize (m s.p).toNat = none) (n : Nat) : (rounds m e n s).p = s.p := by
  induction n generalizing s with
  | zero => rfl
  | succ n ih =>
    rw [rounds, if_pos hp, round_unknown h]
    exact ih hp h

theorem MeetsUnknown.runs {p : Addr} (h : MeetsUnknown m e p) (hs : s.p = p) (n : Nat) : (rounds m e n s).p < e := by
  induction h generalizing s n with
  | here hp h =>
    subst hs
    rw [rounds_unknown hp h]
    exact hp
  | next hp h _ ih =>
    subst hs
    cases n with
    | zero => exact hp
    | succ n =>
      rw [rounds, if_pos hp]
      exact ih (round_known h).1 n

theorem rounds_end (hroom : e.toNat + 20 ≤ 2 ^ 32) (h : ¬MeetsUnknown m e s.p) :
    ∃ n, ¬(rounds m e n s).p < e ∧ (rounds m e n s).g.ismp = s.g.ismp := by
  induction hleft : e.toNat - s.p.toNat using Nat.strongRecOn generalizing s with
  | ind left ih =>
    by_cases hp : s.p < e
    · have hlt : s.p.toNat < e.toNat := hp
      cases hsize : entrySize (m s.p).toNat with
      | none => exact absurd (.here hp hsize) h
      | some k =>
        obtain ⟨hnext, hismp⟩ := round_known hsize
        obtain ⟨hpos, hle⟩ := entrySize_bounds hsize
        have hto : (round m s).p.toNat = s.p.toNat + k := by
          rw [hnext, toNat_add_ofNat (by omega)]
        obtain ⟨n, hend, hsame⟩ := ih _ (by omega) (fun hmeets => h (.next hp hsize (hnext ▸ hmeets))) rfl
        refine ⟨n + 1, ?_⟩
        rw [rounds, if_pos hp]
        exact ⟨hend, hsame.trans hismp⟩
    · exact ⟨0, hp, rfl⟩

theorem rounds_stable {n' : Nat} (h : ¬(rounds m e n s).p < e) (hn : n ≤ n') : rounds m e n' s = rounds m e n s := by
  induction n generalizing s n' with
  | zero =>
    cases n' with
    | zero => rfl
    | succ n' => exact if_neg h
  | succ n ih =>
    obtain ⟨n', rfl⟩ := Nat.exists_eq_succ_of_ne_zero (Nat.ne_of_gt (Nat.lt_of_lt_of_le (Nat.succ_pos n) hn))
    rw [rounds] at h ⊢
    rw [rounds]
    split
    · rename_i hp
      rw [if_pos hp] at h
      exact ih h (Nat.le_of_succ_le_succ hn)
    · rfl

theorem rounds_ismp (hroom : e.toNat + 20 ≤ 2 ^ 32) (hend : ¬(rounds m e n s).p < e) :
    (rounds m e n s).g.ismp = s.g.ismp := by
  have hknown : ¬MeetsUnknown m e s.p := fun h => hend (h.runs rfl n)
  obtain ⟨n', hend', hismp⟩ := rounds_end hroom hknown
  rw [← rounds_stable hend (Nat.le_max_left n n'), rounds_stable hend' (Nat.le_max_right n n'), hismp]

end

/-! ### mpinit -/

theorem mpinit_some {m : Mem} {mp conf : Addr} {n : Nat} {g g' : Globals} (hconf : mpconfig m = some (mp, conf))
    (hismp : ¬(walk m conf n g).p < tableEnd m conf → (walk m conf n g).g.ismp = true) (h : mpinit m n g = some g') :
    ¬(walk m conf n g).p < tableEnd m conf ∧ g'.ismp = true := by
  unfold mpinit at h
  rw [hconf] at h
  dsimp only at h
  split at h
  · cases h
  · rename_i hend
    have hismp := hismp hend
    rw [if_neg (by rw [hismp]; simp)] at h
    split at h
    all_goals
      cases h
      exact ⟨hend, hismp⟩

/-- The loop of `mpinit` registers at most `NCPU` processors, and it ends exactly if it meets no entry of unknown type. When
    it ends, the fallback for such an entry is not taken. -/
theorem mpinit_ends_iff {m : Mem} {mp conf : Addr} (hconf : mpconfig m = some (mp, conf))
    (hroom : (tableEnd m conf).toNat + 20 ≤ 2 ^ 32) {g : Globals} (hcpus : g.ncpu ≤ ncpuMax) :
    (∀ n, (walk m conf n g).g.ncpu ≤ ncpuMax) ∧
      ((∃ n g', mpinit m n g = some g') ↔ ¬MeetsUnknown m (tableEnd m conf) (conf + confSize)) ∧
      ∀ n g', mpinit m n g = some g' →
        (g'.ismp = false ∧ g'.ncpu = 1 ↔ MeetsUnknown m (tableEnd m conf) (conf + confSize)) := by
  have hismp (n : Nat) : ¬(walk m conf n g).p < tableEnd m conf → (walk m conf n g).g.ismp = true := rounds_ismp hroom
  refine ⟨rounds_ncpu_le hcpus, ⟨?_, fun hknown => ?_⟩, fun n g' h => ?_⟩
  · rintro ⟨n, g', h⟩ hmeets
    exact (mpinit_some hconf (hismp n) h).1 (hmeets.runs rfl n)
  · obtain ⟨n, hp, -⟩ :=
      rounds_end (s := ⟨conf + confSize, { g with ismp := true, lapic := lapicaddr m conf }⟩) hroom hknown
    have hp : ¬(walk m conf n g).p < tableEnd m conf := hp
    refine ⟨n, ?_⟩
    unfold mpinit
    rw [hconf]
    dsimp only
    rw [if_neg hp]
    split
    · exact ⟨_, rfl⟩
    · split <;> exact ⟨_, rfl⟩
  · obtain ⟨hp, hset⟩ := mpinit_some hconf (hismp n) h
    refine iff_of_false (fun hno => ?_) fun hmeets => hp (hmeets.runs rfl n)
    rw [hset] at hno
    cases hno.1

/-! ### Tables -/

def bootGlobals : Globals := ⟨false, 0, 0, 0, fun _ => 0, false⟩

/-- A memory with the EBDA at `0x9FC00` and an `mp` structure in the ROM that points to a table at `0x1000`, with the low
    byte of its length, its checksum and its entries. -/
def firmware (length checksum : Byte) (entries : List Byte) : Mem :=
  let bda := storeBytes (fun _ => 0) 0x8000040E [0xC0, 0x9F]
  storeBytes (storeBytes bda 0x800F0000 (mpSignature ++ [0, 0x10, 0, 0, 1, 4, 0x90])) 0x80001000
    (confSignature ++ [length, 0, 4, checksum] ++ List.replicate 36 0 ++ entries)

def goodTable : Mem := firmware 72 0x80 (0 :: 3 :: List.replicate 18 0 ++ 1 :: List.replicate 7 0)

def unknownTable : Mem := firmware 45 0x9A [5]

/-- The walk through a table of a processor and a bus ends after two entries. -/
theorem mpinit_ends_good : ¬MeetsUnknown goodTable (tableEnd goodTable 0x80001000) (0x80001000 + confSize) ∧
    ∃ g', mpinit goodTable 2 bootGlobals = some g' ∧ g'.ncpu = 1 ∧ g'.ismp ≠ false := by
  have hconf : mpconfig goodTable = some (0x800F0000, 0x80001000) := by decide +kernel
  obtain ⟨-, hends, hfallback⟩ := mpinit_ends_iff hconf (by decide +kernel) (show bootGlobals.ncpu ≤ ncpuMax by decide)
  have hcount : (mpinit goodTable 2 bootGlobals).map (·.ncpu) = some 1 := by decide +kernel
  obtain ⟨g', hg', hncpu⟩ := Option.map_eq_some_iff.mp hcount
  have hknown := hends.mp ⟨2, g', hg'⟩
  exact ⟨hknown, g', hg', hncpu, fun hismp => hknown ((hfallback 2 g' hg').mp ⟨hismp, hncpu⟩)⟩

/-- The walk through a table with an entry of type 5 never ends. -/
theorem mpinit_never_ends : mpconfig unknownTable = some (0x800F0000, 0x80001000) ∧
    ∀ n g, mpinit unknownTable n g = none := by
  have hconf : mpconfig unknownTable = some (0x800F0000, 0x80001000) := by decide +kernel
  have hmeets : MeetsUnknown unknownTable (tableEnd unknownTable 0x80001000) (0x80001000 + confSize) :=
    .here (by decide +kernel) (by decide +kernel)
  refine ⟨hconf, fun n g => ?_⟩
  unfold mpinit
  rw [hconf]
  exact if_pos (hmeets.runs rfl n)

end Xv6.Mp
