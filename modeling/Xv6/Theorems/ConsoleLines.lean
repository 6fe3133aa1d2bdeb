import Xv6.Console
import Xv6.Lib.Run

/-! The console input as a stream of lines. What has been typed is a line that can still be edited, and the stream of what
    has been committed, from which the readers take. The ring buffer holds what is not read of both. -/

namespace Xv6.Console
open Lib

/-! ### The line discipline -/

/-- What has been committed, how much of it has been taken, and the line that is edited. -/
structure Lines where
  committed : List Byte
  taken : Nat
  line : List Byte

namespace Lines

def unread (a : Lines) : List Byte := a.committed.drop a.taken

/-- The line is committed at a newline, at `^D` or when there is no room for more. -/
def store (a : Lines) (c : Byte) : Lines :=
  let c := if c = return_ then newline else c
  let line := a.line ++ [c]
  if c = newline ∨ c = ctrl 'D' ∨ a.unread.length + line.length = inputBuf then
    { a with committed := a.committed ++ line, line := [] }
  else { a with line }

def type (a : Lines) (c : Byte) : Lines :=
  if c = ctrl 'P' then a
  else if c = ctrl 'U' then { a with line := [] }
  else if c = ctrl 'H' ∨ c = delete then { a with line := a.line.dropLast }
  else if c ≠ 0 ∧ a.unread.length + a.line.length < inputBuf then a.store c
  else a

/-- A read stops when it has all bytes, behind a newline, and at `^D`, which it takes only if it has nothing yet. -/
def read (target : Nat) : Nat → List Byte → Lines → Gives × Lines
  | 0, got, a => (.ret got, a)
  | n + 1, got, a =>
    match a.unread with
    | [] => (.sleep ⟨target, n + 1, got⟩, a)
    | c :: _ =>
      if c = ctrl 'D' then (.ret got, if got = [] then { a with taken := a.taken + 1 } else a)
      else if c = newline then (.ret (got ++ [c]), { a with taken := a.taken + 1 })
      else read target n (got ++ [c]) { a with taken := a.taken + 1 }

end Lines

/-- A step of the line discipline. -/
def lineStep {ι : Type} [DecidableEq ι] : System ι Lines → Event ι → Option (System ι Lines) :=
  System.stepWith (fun a cs => cs.foldl Lines.type a) fun call => Lines.read call.target call.n call.got

def System.noLines {ι : Type} : System ι Lines := ⟨⟨[], 0, []⟩, fun _ => none, [], []⟩

/-! ### The ring buffer -/

/-- The ring buffer from the read index up to the edit index. -/
def Input.ring (x : Input) : Ring 32 inputBuf Byte := ⟨x.buf, x.r, x.e⟩

/-- The ring buffer holds what is unread of the lines. -/
structure Holds (x : Input) (a : Lines) : Prop where
  contents : x.ring.contents = a.unread ++ a.line
  unread : (x.w - x.r).toNat = a.unread.length
  room : a.unread.length + a.line.length ≤ inputBuf
  line : newline ∉ a.line
  taken : a.taken ≤ a.committed.length

namespace Holds
variable {x : Input} {a : Lines}

theorem used (h : Holds x a) : (x.e - x.r).toNat = a.unread.length + a.line.length := by
  rw [← List.length_append, ← h.contents, Ring.length_contents]
  rfl

theorem e_eq_w (h : Holds x a) : x.e = x.w ↔ a.line = [] := by
  have hcancel : x.e = x.w ↔ (x.e - x.r).toNat = (x.w - x.r).toNat := by
    constructor
    · intro he
      rw [he]
    · bv_omega
  rw [hcancel, h.used, h.unread, ← List.length_eq_zero_iff]
  omega

theorem r_eq_w (h : Holds x a) : x.r = x.w ↔ a.unread = [] := by
  have hring := (⟨x.buf, x.r, x.w⟩ : Ring 32 inputBuf Byte).nread_eq_nwrite_iff
  rw [Ring.used, h.unread, List.length_eq_zero_iff] at hring
  exact hring

theorem line_length (h : Holds x a) : (x.e - x.w).toNat = a.line.length := by
  have hused := h.used
  have hunread := h.unread
  have hroom := h.room
  simp only [inputBuf] at hroom
  bv_omega

/-! ### consoleintr -/

theorem store (h : Holds x a) (hroom : a.unread.length + a.line.length < inputBuf) (c : Byte) :
    Holds (x.store c) (a.store c) := by
  rw [Input.store, Lines.store]
  dsimp only
  generalize (if c = return_ then newline else c) = c
  have hput : (x.ring.put c).contents = a.unread ++ (a.line ++ [c]) := by
    rw [Ring.contents_put x.ring c (by decide) (by decide) (by rw [Ring.used]; exact h.used ▸ hroom), h.contents,
      List.append_assoc]
  have hused : (x.ring.put c).used = a.unread.length + (a.line ++ [c]).length := by
    rw [← List.length_append, ← hput, Ring.length_contents]
  have hfull : x.e + 1 = x.r + BitVec.ofNat 32 inputBuf ↔ a.unread.length + (a.line ++ [c]).length = inputBuf := by
    rw [← hused]
    exact (x.ring.put c).nwrite_eq_add_iff (by decide)
  have hlen : (a.line ++ [c]).length = a.line.length + 1 := List.length_append
  simp only [hfull]
  split
  · have hunread : Lines.unread { a with committed := a.committed ++ (a.line ++ [c]), line := [] } =
        a.unread ++ (a.line ++ [c]) :=
      List.drop_append_of_le_length h.taken
    refine ⟨?_, ?_, ?_, List.not_mem_nil, ?_⟩
    · rw [hunread, List.append_nil]
      exact hput
    · rw [hunread, List.length_append]
      exact hused
    · rw [hunread, List.length_append, List.length_nil]
      omega
    · have := h.taken
      simp only [List.length_append]
      omega
  · rename_i hno
    refine ⟨hput, h.unread, ?_, fun hmem => ?_, h.taken⟩
    · change a.unread.length + (a.line ++ [c]).length ≤ inputBuf
      omega
    · rcases List.mem_append.mp hmem with hmem | hmem
      · exact h.line hmem
      · exact hno (.inl (List.mem_singleton.mp hmem).symm)

theorem unput (h : Holds x a) (hline : a.line ≠ []) : a.unread ++ a.line = x.ring.unput.contents ++ [x.ring.back] := by
  have hpos : 0 < a.line.length := List.length_pos_iff.mpr hline
  have hused : 0 < x.ring.used := by
    rw [Ring.used]
    have := h.used
    simp only [Input.ring]
    omega
  rw [← h.contents, Ring.contents_unput x.ring hused]

theorem back (h : Holds x a) (hline : a.line ≠ []) : Holds { x with e := x.e - 1 } { a with line := a.line.dropLast } := by
  have hdrop := congrArg List.dropLast (h.unput hline)
  rw [List.dropLast_concat, List.dropLast_append_of_ne_nil hline] at hdrop
  refine ⟨hdrop.symm, h.unread, ?_, fun hmem => h.line ((List.dropLast_sublist _).mem hmem), h.taken⟩
  have := h.room
  change a.unread.length + a.line.dropLast.length ≤ inputBuf
  rw [List.length_dropLast]
  omega

theorem last (h : Holds x a) (hline : a.line ≠ []) : x.get (x.e - 1) ∈ a.line := by
  have hlast := congrArg List.getLast? (h.unput hline)
  rw [List.getLast?_concat, List.getLast?_append_of_ne_nil _ hline] at hlast
  exact List.mem_of_getLast? hlast

theorem killLine (h : Holds x a) {c : Nat} (hc : a.line.length = c) : Holds (x.killLine c) { a with line := [] } := by
  induction c generalizing x a with
  | zero =>
    obtain ⟨committed, taken, line⟩ := a
    obtain rfl : line = [] := List.length_eq_zero_iff.mp hc
    exact h
  | succ c ih =>
    have hline : a.line ≠ [] := by
      rintro hnil
      rw [hnil] at hc
      cases hc
    have hnl : x.get (x.e - 1) ≠ newline := fun heq => h.line (heq ▸ h.last hline)
    rw [Input.killLine, if_pos ⟨fun he => hline (h.e_eq_w.mp he), hnl⟩]
    have hlen : a.line.dropLast.length = c := by rw [List.length_dropLast, hc, Nat.add_sub_cancel]
    have hrest := ih (h.back hline) hlen
    exact hrest

theorem type (h : Holds x a) (c : Byte) : Holds (x.type c) (a.type c) := by
  rw [Input.type, Lines.type, h.used, h.line_length]
  split_ifs with hP hU hH hw hstore
  · exact h
  · exact h.killLine rfl
  · exact h.back fun hnil => hw (h.e_eq_w.mpr hnil)
  · rw [not_not, h.e_eq_w] at hw
    obtain ⟨committed, taken, line⟩ := a
    obtain rfl : line = [] := hw
    exact h
  · exact h.store hstore.2 c
  · exact h

theorem intr (h : Holds x a) (cs : List Byte) : Holds (x.consoleintr cs) (cs.foldl Lines.type a) := by
  rw [Input.consoleintr]
  induction cs generalizing x a with
  | nil => exact h
  | cons c cs ih => exact ih (h.type c)

/-! ### consoleread -/

theorem pop (h : Holds x a) {c : Byte} {rest : List Byte} (hunread : a.unread = c :: rest) :
    x.get x.r = c ∧ Holds { x with r := x.r + 1 } { a with taken := a.taken + 1 } := by
  have hlen : a.unread.length = rest.length + 1 := by rw [hunread, List.length_cons]
  have hused : 0 < x.ring.used := by
    rw [Ring.used]
    have := h.used
    simp only [Input.ring]
    omega
  have hcontents := Ring.contents_pop x.ring hused
  rw [h.contents, hunread, List.cons_append, List.cons.injEq] at hcontents
  have hrest : Lines.unread { a with taken := a.taken + 1 } = rest := by
    rw [Lines.unread, ← List.drop_drop]
    change (a.unread).drop 1 = rest
    rw [hunread]
    rfl
  have hroom := h.room
  refine ⟨hcontents.1.symm, ?_, ?_, ?_, h.line, ?_⟩
  · rw [hrest]
    exact hcontents.2.symm
  · have hw := h.unread
    rw [hrest]
    simp only [inputBuf] at hroom
    bv_omega
  · rw [hrest]
    change rest.length + a.line.length ≤ inputBuf
    omega
  · change a.taken + 1 ≤ a.committed.length
    have hdrop : a.unread.length = a.committed.length - a.taken := List.length_drop
    omega

theorem read (h : Holds x a) {target n : Nat} {got : List Byte} (hn : got.length + n = target) :
    (consolereadLoop target n got x).1 = (Lines.read target n got a).1 ∧
      Holds (consolereadLoop target n got x).2 (Lines.read target n got a).2 := by
  induction n generalizing x a got with
  | zero => exact ⟨rfl, h⟩
  | succ n ih =>
    rw [consolereadLoop, Lines.read]
    cases hunread : a.unread with
    | nil =>
      rw [if_pos (h.r_eq_w.mpr hunread)]
      exact ⟨rfl, h⟩
    | cons c rest =>
      have hne : ¬x.r = x.w := fun heq => by
        rw [h.r_eq_w, hunread] at heq
        cases heq
      obtain ⟨hc, hpop⟩ := h.pop hunread
      rw [if_neg hne]
      dsimp only
      rw [hc]
      split
      · refine ⟨rfl, ?_⟩
        by_cases hgot : got = []
        · rw [if_pos hgot, if_neg (by rw [hgot, List.length_nil] at hn; omega)]
          exact hpop
        · have hpos : 0 < got.length := List.length_pos_iff.mpr hgot
          rw [if_neg hgot, if_pos (by omega)]
          -- The character is put back.
          dsimp only
          rw [BitVec.add_sub_cancel]
          exact h
      · split
        · exact ⟨rfl, hpop⟩
        · exact ih hpop (by rw [List.length_append, List.length_singleton]; omega)

end Holds

/-! ### Runs -/

/-- What the readers have received of the stream: all that has been taken, but for the `^D`. -/
def Lines.delivered (a : Lines) : List Byte := (a.committed.take a.taken).filter (· ≠ ctrl 'D')

theorem Lines.type_delivered {a : Lines} (h : a.taken ≤ a.committed.length) (c : Byte) :
    (a.type c).delivered = a.delivered ∧ (a.type c).taken ≤ (a.type c).committed.length := by
  have hstore : (a.store c).delivered = a.delivered ∧ (a.store c).taken ≤ (a.store c).committed.length := by
    rw [Lines.store]
    generalize (if c = return_ then newline else c) = c
    split
    · refine ⟨?_, Nat.le_trans h (by rw [List.length_append]; exact Nat.le_add_right ..)⟩
      rw [Lines.delivered, List.take_append_of_le_length h, Lines.delivered]
    · exact ⟨rfl, h⟩
  rw [Lines.type]
  split_ifs
  · exact ⟨rfl, h⟩
  · exact ⟨rfl, h⟩
  · exact ⟨rfl, h⟩
  · exact hstore
  · exact ⟨rfl, h⟩

theorem Lines.take_succ {a : Lines} {c : Byte} {rest : List Byte} (h : a.unread = c :: rest) :
    a.committed.take (a.taken + 1) = a.committed.take a.taken ++ [c] := by
  have hget : a.committed[a.taken]? = some c := by
    rw [← List.head?_drop, ← Lines.unread, h]
    rfl
  rw [List.take_add_one, hget]
  rfl

/-- How a read gives up the lock, and with what. -/
def Gives.got : Gives → List Byte
  | .sleep call => call.got
  | .ret got => got

theorem Lines.read_delivered (target n : Nat) (got : List Byte) (a : Lines) :
    ∃ new, (Lines.read target n got a).1.got = got ++ new ∧
      (Lines.read target n got a).2.delivered = a.delivered ++ new ∧
      ∀ call, (Lines.read target n got a).1 = .sleep call → call.target = target ∧
          call.got.length + call.n = got.length + n := by
  induction n generalizing got a with
  | zero => exact ⟨[], (List.append_nil _).symm, (List.append_nil _).symm, nofun⟩
  | succ n ih =>
    rw [Lines.read]
    cases hunread : a.unread with
    | nil =>
      refine ⟨[], (List.append_nil _).symm, (List.append_nil _).symm, fun call hcall => ?_⟩
      cases hcall
      exact ⟨rfl, rfl⟩
    | cons c rest =>
      have htake := Lines.take_succ hunread
      dsimp only
      split
      · rename_i hD
        refine ⟨[], (List.append_nil _).symm, ?_, nofun⟩
        rw [List.append_nil]
        split
        · rw [Lines.delivered, htake, List.filter_append, hD, Lines.delivered]
          exact List.append_nil _
        · rfl
      · rename_i hD
        have hnew : Lines.delivered { a with taken := a.taken + 1 } = a.delivered ++ [c] := by
          rw [Lines.delivered, htake, List.filter_append, Lines.delivered, List.filter_cons_of_pos (by simpa using hD),
            List.filter_nil]
        split
        · exact ⟨[c], rfl, hnew, nofun⟩
        · obtain ⟨new, hgot, hdel, hcall⟩ := ih (got ++ [c]) { a with taken := a.taken + 1 }
          refine ⟨c :: new, ?_, ?_, fun call hc => ?_⟩
          · rw [hgot, List.append_assoc]
            rfl
          · rw [hdel, hnew, List.append_assoc]
            rfl
          · obtain ⟨htarget, hlen⟩ := hcall call hc
            rw [List.length_append, List.length_singleton] at hlen
            exact ⟨htarget, by omega⟩

section Simulation
variable {ι : Type} {s s' : System ι Input} {t : System ι Lines} {ev : Event ι}

/-- The system and the line discipline have come to the same. -/
structure Agrees (s : System ι Input) (t : System ι Lines) : Prop where
  input : Holds s.input t.input
  calls : s.calls = t.calls
  received : s.received = t.received
  reads : s.reads = t.reads
  stream : t.received = t.input.delivered
  counts : ∀ p call, t.calls p = some call → call.got.length + call.n = call.target

theorem Agrees.intr (h : Agrees s t) (cs : List Byte) :
    Agrees { s with input := s.input.consoleintr cs } { t with input := cs.foldl Lines.type t.input } := by
  have hstream : (cs.foldl Lines.type t.input).delivered = t.input.delivered := by
    have htaken := h.input.taken
    generalize t.input = a at htaken
    induction cs generalizing a with
    | nil => rfl
    | cons c cs ih =>
      obtain ⟨hdel, hle⟩ := Lines.type_delivered htaken c
      exact (ih _ hle).trans hdel
  exact ⟨h.input.intr cs, h.calls, h.received, h.reads, h.stream.trans hstream.symm, h.counts⟩

theorem start_agrees (buf : Fin inputBuf → Byte) (i : BitVec 32) : Agrees (.start buf i : System ι Input) .noLines := by
  refine ⟨⟨?_, ?_, Nat.zero_le _, List.not_mem_nil, Nat.zero_le _⟩, rfl, rfl, rfl, rfl, nofun⟩
  · simp [System.start, Input.ring, Ring.contents, Ring.used, System.noLines, Lines.unread]
  · simp [System.start, System.noLines, Lines.unread]

theorem Agrees.counts_update [DecidableEq ι] (h : Agrees s t) {p : ι} {new : Option Call}
    (hnew : ∀ call, new = some call → call.got.length + call.n = call.target) (q : ι) (call : Call)
    (hq : Function.update s.calls p new q = some call) : call.got.length + call.n = call.target := by
  by_cases hqp : q = p
  · rw [hqp, Function.update_self] at hq
    exact hnew call hq
  · rw [Function.update_of_ne hqp, h.calls] at hq
    exact h.counts q call hq

theorem Agrees.step [DecidableEq ι] (h : Agrees s t) (hs : s.step ev = some s') : ∃ t', lineStep t ev = some t' ∧
    Agrees s' t' := by
  cases ev with
  | intr cs =>
    cases hs
    exact ⟨_, rfl, h.intr cs⟩
  | call p n =>
    rw [System.step, System.stepWith] at hs
    rw [lineStep, System.stepWith, ← h.calls]
    split at hs
    · rename_i hfree
      cases hs
      rw [if_pos hfree]
      refine ⟨_, rfl, h.input, by rw [h.calls], h.received, h.reads, h.stream, h.counts_update fun call hcall => ?_⟩
      cases hcall
      exact Nat.zero_add _
    · cases hs
  | run p =>
    rw [System.step, System.stepWith] at hs
    rw [lineStep, System.stepWith, ← h.calls]
    obtain ⟨call, hcall, hs⟩ := Option.map_eq_some_iff.mp hs
    rw [hcall, Option.map_some]
    refine ⟨_, rfl, ?_⟩
    subst hs
    have hcount := h.counts p call (h.calls ▸ hcall)
    obtain ⟨hgives, hholds⟩ := h.input.read hcount
    obtain ⟨new, hgot, hdel, hsleep⟩ := Lines.read_delivered call.target call.n call.got t.input
    generalize consolereadLoop call.target call.n call.got s.input = x at hgives hholds
    generalize Lines.read call.target call.n call.got t.input = y at hgives hholds hgot hdel hsleep
    obtain ⟨g, x⟩ := x
    obtain ⟨g', y⟩ := y
    obtain rfl : g = g' := hgives
    have hnew : g.got.drop call.got.length = new := by rw [hgot, List.drop_left]
    have hstream : t.received ++ g.got.drop call.got.length = y.delivered := by rw [hnew, h.stream, ← hdel]
    cases g with
    | sleep call' =>
      refine ⟨hholds, by rw [h.calls], by rw [h.received], h.reads, hstream, h.counts_update fun c hc => ?_⟩
      cases hc
      obtain ⟨htarget, hlen⟩ := hsleep call' rfl
      omega
    | ret got =>
      exact ⟨hholds, by rw [h.calls], by rw [h.received], by rw [h.reads], hstream, h.counts_update nofun⟩

end Simulation

/-- Every run of the console is one of the line discipline, with the same reads: the unread characters are between the
    indices, and what the readers have received, in order, is the committed stream as far as it has been taken, without
    the `^D`. -/
theorem console_discipline {ι : Type} [DecidableEq ι] {buf : Fin inputBuf → Byte} {i : BitVec 32}
    {tr : List (System ι Input × Event ι)} {s : System ι Input} (hrun : Run (OfStep System.step) (.start buf i) tr s) :
    ((s.input.w - s.input.r).toNat ≤ (s.input.e - s.input.r).toNat ∧ (s.input.e - s.input.r).toNat ≤ inputBuf) ∧
      ∃ tr' t, Run (OfStep lineStep) .noLines tr' t ∧ tr'.map (·.2) = tr.map (·.2) ∧ s.calls = t.calls ∧ s.reads = t.reads ∧
        s.received = (t.input.committed.take t.input.taken).filter (· ≠ ctrl 'D') := by
  obtain ⟨tr', t, hrun', hlabels, hagrees⟩ := hrun.simulates (start_agrees buf i) Agrees.step
  have hused := hagrees.input.used
  have hunread := hagrees.input.unread
  refine ⟨⟨by omega, hused ▸ hagrees.input.room⟩, tr', t, hrun', hlabels, hagrees.calls, hagrees.reads, ?_⟩
  exact hagrees.received.trans hagrees.stream

/-- A line is edited while the indices wrap around, and a read takes it up to the newline; the next read gets the `^D`. -/
theorem console_discipline_line : ∃ tr, ∃ s : System Unit Input, Run (OfStep System.step) (.start (fun _ => 0) (-2)) tr s ∧
    tr.map (·.2) = [.call () 10, .intr [0x61, ctrl 'H', 0x62, return_, ctrl 'D'], .run (), .call () 10, .run ()] ∧
    s.reads = [((), [0x62, newline]), ((), [])] ∧ s.received = [0x62, newline] ∧ s.input.r = 1 ∧
    ∃ tr' t, Run (OfStep lineStep) .noLines tr' t ∧ tr'.map (·.2) = tr.map (·.2) ∧ s.reads = t.reads := by
  obtain ⟨tr, s, hrun, htr, hreads, hreceived, hr⟩ := Run.exists_of_traceOf (f := System.step) (.start (fun _ => 0) (-2))
    [.call () 10, .intr [0x61, ctrl 'H', 0x62, return_, ctrl 'D'], .run (), .call () 10, .run ()]
    (fun _ s => s.reads = [((), [0x62, newline]), ((), [])] ∧ s.received = [0x62, newline] ∧ s.input.r = 1)
    (by decide +kernel)
  obtain ⟨-, tr', t, hrun', htr', -, hsame, -⟩ := console_discipline hrun
  exact ⟨tr, s, hrun, htr, hreads, hreceived, hr, tr', t, hrun', htr', hsame⟩

end Xv6.Console
