import RiscHart.Proofs.AssemblyReader
import RiscHart.Proofs.Classification
import RiscHart.Proofs.Reporting
import RiscHart.Proofs.StepOutcome

/-!
# What the log of a run tells

A step on a word that is no instruction leaves one entry, with the reason. A step on an instruction
leaves an entry with the program counter and the text of the word, and if it faults a second one,
with the access that did not fit. The first entry of a step tells its word, and no step starts with
the entry of a fault. So the log of a run can be divided into its steps in one way only, and runs
with the same log are runs of the same words that fail at the same steps.
-/

namespace RiscHart

namespace DecodeError

/-- The word that was not decoded. -/
def word : DecodeError → Word
  | notImplemented w => w
  | unknownOpcode w _ => w
  | illegal w => w

/-- The letter with which the message begins; it tells the reason. -/
def initial : DecodeError → Char
  | notImplemented _ => 'd'
  | unknownOpcode _ _ => 'u'
  | illegal _ => 'i'

theorem head?_append {s : String} {c : Char} (hs : s.toList.head? = some c) (t : String) :
    (s ++ t).toList.head? = some c := by
  rw [String.toList_append, List.head?_append, hs]
  rfl

theorem head?_message (e : DecodeError) : e.message.toList.head? = some e.initial := by
  cases e with
  | notImplemented w => exact head?_append (head?_append rfl _) _
  | unknownOpcode w opcode => exact head?_append (head?_append (head?_append rfl _) _) _
  | illegal w => exact head?_append rfl _

theorem unknownOpcode_of_message {w v opcode code : Word}
    (h : (unknownOpcode w opcode).message = (unknownOpcode v code).message) :
    w = v ∧ opcode = code := by
  change _ ++ Numeral.binaryPadded 7 _ ++ _ ++ Numeral.word w =
    _ ++ Numeral.binaryPadded 7 _ ++ _ ++ Numeral.word v at h
  obtain ⟨hfront, hword⟩ := Numeral.append_word_inj h
  rw [String.append_left_inj, String.append_right_inj] at hfront
  exact ⟨hword, BitVec.eq_of_toNat_eq (Numeral.binaryPadded_injective 7 hfront)⟩

/-- The message tells the reason and the word. -/
theorem message_injective : Function.Injective message := by
  intro e f h
  have hinitial : e.initial = f.initial := by
    apply Option.some.inj
    rw [← head?_message, ← head?_message, h]
  cases e with
  | notImplemented w =>
    cases f with
    | notImplemented v =>
      change _ ++ Numeral.word w ++ _ = _ ++ Numeral.word v ++ _ at h
      rw [String.append_left_inj, String.append_right_inj] at h
      rw [Numeral.word_injective h]
    | unknownOpcode v code => exact absurd hinitial (by decide : 'd' ≠ 'u')
    | illegal v => exact absurd hinitial (by decide : 'd' ≠ 'i')
  | unknownOpcode w opcode =>
    cases f with
    | notImplemented v => exact absurd hinitial (by decide : 'u' ≠ 'd')
    | unknownOpcode v code =>
      obtain ⟨rfl, rfl⟩ := unknownOpcode_of_message h
      rfl
    | illegal v => exact absurd hinitial (by decide : 'u' ≠ 'i')
  | illegal w =>
    cases f with
    | notImplemented v => exact absurd hinitial (by decide : 'i' ≠ 'd')
    | unknownOpcode v code => exact absurd hinitial (by decide : 'i' ≠ 'u')
    | illegal v =>
      change _ ++ Numeral.word w = _ ++ Numeral.word v at h
      rw [String.append_right_inj] at h
      rw [Numeral.word_injective h]

theorem word_of_decode {w : Word} {e : DecodeError} (hw : decode w = .error e) : e.word = w := by
  by_cases hlow : w.extractLsb' 0 2 = 3#2
  · by_cases hop : w.extractLsb' 0 7 ∈ majorOpcodes
    · have hnone : ∀ o : Op, ¬ o.pattern.Matches w := by
        intro o ho
        rw [decode_of_matches ho] at hw
        cases hw
      rw [decode_of_unmatched hop hnone] at hw
      cases hw
      rfl
    · rw [decode_of_unassigned hlow hop] at hw
      cases hw
      rfl
  · rw [decode_of_short hlow] at hw
    cases hw
    rfl

end DecodeError

namespace Entry

def decodeFailed (e : DecodeError) : Entry := ⟨.debug, "decode failed", [("e", .text e.message)]⟩

def instruction (pc w : Word) : Entry :=
  ⟨.trace, disassemble w, [("pc", .text (Numeral.word pc))]⟩

def outOfBounds (addr : Word) (width : Nat) : Entry :=
  ⟨.debug, "memory access out of bounds",
    [("addr", .text (Numeral.word addr)), ("width", .number width)]⟩

theorem entry_executing {w : Word} {i : Instr} (hw : decode w = .ok i) (pc : Word) :
    (Event.executing pc i).entry = instruction pc w := by
  rw [Event.entry, instruction, disassemble_of_decode hw]

theorem decodeFailed_ne_instruction (e : DecodeError) (pc w : Word) :
    decodeFailed e ≠ instruction pc w := by
  intro h
  cases congrArg Entry.level h

theorem outOfBounds_ne_decodeFailed (addr : Word) (width : Nat) (e : DecodeError) :
    outOfBounds addr width ≠ decodeFailed e := by
  intro h
  have hmessage : "memory access out of bounds" = "decode failed" := congrArg Entry.message h
  exact absurd hmessage (by decide)

theorem outOfBounds_ne_instruction (addr : Word) (width : Nat) (pc w : Word) :
    outOfBounds addr width ≠ instruction pc w := by
  intro h
  cases congrArg Entry.level h

theorem decodeFailed_injective : Function.Injective decodeFailed := by
  intro e f h
  simp only [decodeFailed, Entry.mk.injEq, List.cons.injEq, Prod.mk.injEq, EntryValue.text.injEq,
    true_and, and_true] at h
  exact DecodeError.message_injective h

theorem instruction_injective {pc pc' w u : Word} {i j : Instr} (hw : decode w = .ok i)
    (hu : decode u = .ok j) (h : instruction pc w = instruction pc' u) : pc = pc' ∧ w = u := by
  simp only [instruction, Entry.mk.injEq, List.cons.injEq, Prod.mk.injEq, EntryValue.text.injEq,
    true_and, and_true] at h
  obtain ⟨htext, hpc⟩ := h
  rw [disassemble_of_decode hw, disassemble_of_decode hu] at htext
  have hread := assemble?_text i
  rw [htext, assemble?_text, decode_eq_ok_iff.mp hw, decode_eq_ok_iff.mp hu] at hread
  exact ⟨Numeral.word_injective hpc, (Option.some.inj hread).symm⟩

end Entry

namespace Hart

/-- The entries that a step on a word leaves. -/
inductive Reports (h : Hart) (w : Word) : List Entry → Prop
  | rejected {e : DecodeError} (hw : decode w = .error e) : Reports h w [.decodeFailed e]
  | done {i : Instr} (hw : decode w = .ok i) (hok : (h.step w).result = .ok ()) :
    Reports h w [.instruction h.pc w]
  | fault {i : Instr} {a n : Nat} (hw : decode w = .ok i) (hacc : i.access? h = some (a, n))
    (herror : (h.step w).result =
      .error (.memory (.outOfBounds (.ofNat 32 a) n h.memory.capacity))) :
    Reports h w [.instruction h.pc w, .outOfBounds (.ofNat 32 a) n]

/-- The entries of the steps on a list of words, one step behind the other. -/
inductive ReportsAll : Hart → List Word → List Entry → Prop
  | nil {h : Hart} : ReportsAll h [] []
  | cons {h : Hart} {w : Word} {ws : List Word} {es fs : List Entry} (head : h.Reports w es)
    (tail : ReportsAll (h.step w).hart ws fs) : ReportsAll h (w :: ws) (es ++ fs)

/-- What happens when a list of words is given to a hart, whether or not they work. -/
def events (h : Hart) (ws : List Word) : List Event :=
  (h.outcomes Hart.step ws).flatMap Outcome.log

/-- The log of a list of words. -/
def trace (h : Hart) (ws : List Word) : List Entry := (h.events ws).map Event.entry

theorem trace_cons (h : Hart) (w : Word) (ws : List Word) :
    h.trace (w :: ws) = (h.step w).log.map Event.entry ++ (h.step w).hart.trace ws := by
  simp only [trace, events, outcomes, List.flatMap_cons, List.map_append]

theorem reports_step (h : Hart) (w : Word) : h.Reports w ((h.step w).log.map Event.entry) := by
  obtain ⟨e, hw, hs⟩ | ⟨i, e, hw, hi, hs⟩ | ⟨i, h', hw, -, hs⟩ := h.step_cases w
  · rw [hs]
    exact .rejected hw
  · obtain ⟨a, n, hacc, -, rfl⟩ := (i.apply_eq_error_iff h e).mp hi
    have hreport := Reports.fault hw hacc (congrArg Outcome.result hs)
    rw [hs, List.map_cons, Entry.entry_executing hw]
    exact hreport
  · have hreport := Reports.done hw (congrArg Outcome.result hs)
    rw [hs, List.map_cons, Entry.entry_executing hw]
    exact hreport

theorem reportsAll_trace (h : Hart) (ws : List Word) : h.ReportsAll ws (h.trace ws) := by
  induction ws generalizing h with
  | nil => exact .nil
  | cons w ws ih =>
    rw [trace_cons]
    exact .cons (h.reports_step w) (ih _)

/-- No step of a run begins with the entry of a fault. -/
theorem ReportsAll.ne_outOfBounds {h : Hart} {ws : List Word} {es : List Entry}
    (hes : h.ReportsAll ws es) (addr : Word) (width : Nat) (fs : List Entry) :
    es ≠ .outOfBounds addr width :: fs := by
  intro heq
  cases hes with
  | nil => cases heq
  | cons head tail =>
    cases head with
    | rejected hw => exact Entry.outOfBounds_ne_decodeFailed _ _ _ (List.cons.inj heq).1.symm
    | done hw hok => exact Entry.outOfBounds_ne_instruction _ _ _ _ (List.cons.inj heq).1.symm
    | fault hw hacc herror =>
      exact Entry.outOfBounds_ne_instruction _ _ _ _ (List.cons.inj heq).1.symm

/-- A word that is an instruction finds two harts at the same place, and any word fails on both or
on neither. -/
structure AgreeOn (w : Word) (h k : Hart) : Prop where
  pc : ∀ i, decode w = .ok i → h.pc = k.pc
  fails : (∃ e, (h.step w).result = .error e) ↔ ∃ e, (k.step w).result = .error e

theorem Reports.ne_nil {h : Hart} {w : Word} {es : List Entry} (hes : h.Reports w es) :
    es ≠ [] := by
  cases hes <;> exact List.cons_ne_nil _ _

/-- The entries of a step end where those of the next can begin, and they tell the word. -/
theorem Reports.unambiguous {h k : Hart} {w u : Word} {es es' fs fs' : List Entry}
    (hes : h.Reports w es) (hes' : k.Reports u es')
    (hfs : ∀ addr width gs, fs ≠ .outOfBounds addr width :: gs)
    (hfs' : ∀ addr width gs, fs' ≠ .outOfBounds addr width :: gs)
    (heq : es ++ fs = es' ++ fs') : w = u ∧ h.AgreeOn w k ∧ fs = fs' := by
  cases hes with
  | rejected hw =>
    cases hes' with
    | rejected hu =>
      obtain ⟨hhead, htail⟩ := List.cons.inj heq
      obtain rfl := Entry.decodeFailed_injective hhead
      obtain rfl : w = u :=
        (DecodeError.word_of_decode hw).symm.trans (DecodeError.word_of_decode hu)
      refine ⟨rfl, ⟨?_, ?_⟩, htail⟩
      · intro i hi
        rw [hw] at hi
        cases hi
      · rw [h.step_of_undecodable hw, k.step_of_undecodable hw]
    | done hu hok => exact absurd (List.cons.inj heq).1 (Entry.decodeFailed_ne_instruction _ _ _)
    | fault hu hacc herror =>
      exact absurd (List.cons.inj heq).1 (Entry.decodeFailed_ne_instruction _ _ _)
  | done hw hok =>
    cases hes' with
    | rejected hu =>
      exact absurd (List.cons.inj heq).1.symm (Entry.decodeFailed_ne_instruction _ _ _)
    | done hu hok' =>
      obtain ⟨hhead, htail⟩ := List.cons.inj heq
      obtain ⟨hpc, rfl⟩ := Entry.instruction_injective hw hu hhead
      exact ⟨rfl, ⟨fun _ _ => hpc, by rw [hok, hok']⟩, htail⟩
    | fault hu hacc herror => exact absurd (List.cons.inj heq).2 (hfs _ _ _)
  | fault hw hacc herror =>
    cases hes' with
    | rejected hu =>
      exact absurd (List.cons.inj heq).1.symm (Entry.decodeFailed_ne_instruction _ _ _)
    | done hu hok => exact absurd (List.cons.inj heq).2.symm (hfs' _ _ _)
    | fault hu hacc' herror' =>
      obtain ⟨hhead, htail⟩ := List.cons.inj heq
      obtain ⟨hpc, rfl⟩ := Entry.instruction_injective hw hu hhead
      have hfails : (∃ e, (h.step w).result = .error e) ↔ ∃ e, (k.step w).result = .error e :=
        iff_of_true ⟨_, herror⟩ ⟨_, herror'⟩
      exact ⟨rfl, ⟨fun _ _ => hpc, hfails⟩, (List.cons.inj htail).2⟩

theorem ReportsAll.unambiguous {h k : Hart} {ws us : List Word} {es es' : List Entry}
    (hes : h.ReportsAll ws es) (hes' : k.ReportsAll us es') (heq : es = es') :
    ws = us ∧ ∀ n w, ws[n]? = some w →
      (h.after (ws.take n)).AgreeOn w (k.after (ws.take n)) := by
  -- The harts and the logs vary, since a step leaves both their rests behind.
  induction hes generalizing k us es' with
  | nil =>
    cases hes' with
    | nil => exact ⟨rfl, nofun⟩
    | cons head' tail' =>
      exact absurd (List.append_eq_nil_iff.mp heq.symm).1 head'.ne_nil
  | cons head tail ih =>
    cases hes' with
    | nil => exact absurd (List.append_eq_nil_iff.mp heq).1 head.ne_nil
    | cons head' tail' =>
      obtain ⟨rfl, hagree, hrest⟩ :=
        head.unambiguous head' tail.ne_outOfBounds tail'.ne_outOfBounds heq
      obtain ⟨rfl, hall⟩ := ih tail' hrest
      refine ⟨rfl, ?_⟩
      intro n v hn
      cases n with
      | zero =>
        obtain rfl := Option.some.inj hn
        exact hagree
      | succ n => exact hall n v hn

end Hart

/-- The log of a run is what is reported while the words are worked through, step by step. It tells
the words, the program counter before each that is an instruction, and which steps fail: two runs
with the same log agree on all of these, whatever harts they start from. -/
theorem log_determines_run :
    (∀ (h : Hart) (log : List Event) (ws : List Word),
      (Reporting.steps ws).run (h, log) = .ok () (h.after ws, log ++ h.events ws)) ∧
    (∀ (h : Hart) (ws : List Word), h.ReportsAll ws (h.trace ws)) ∧
    (∀ (h k : Hart) (ws us : List Word), h.trace ws = k.trace us →
      ws = us ∧ ∀ n w, ws[n]? = some w →
        (h.after (ws.take n)).AgreeOn w (k.after (ws.take n))) := by
  refine ⟨fun h log ws => Reporting.run_steps h log ws, Hart.reportsAll_trace, ?_⟩
  intro h k ws us heq
  exact (h.reportsAll_trace ws).unambiguous (k.reportsAll_trace us) heq

/-- A word that is no instruction, and then a store below address zero, on harts with different
values to store. -/
theorem log_determines_run_fault :
    let h := Hart.clear .hardwired 4
    let k := h.write 5 7
    let ws := [0x00000013#32, 0x00000000#32, 0xFE502E23#32]
    h ≠ k ∧ h.trace ws = k.trace ws ∧ (∀ us, h.trace ws = k.trace us → ws = us) ∧
      (h.after (ws.take 2)).AgreeOn 0xFE502E23#32 (k.after (ws.take 2)) := by
  intro h k ws
  have hevents : h.events ws = k.events ws := by decide
  have hsame : h.trace ws = k.trace ws := congrArg (List.map Event.entry) hevents
  obtain ⟨-, -, hdetermines⟩ := log_determines_run
  refine ⟨by decide, hsame, ?_, ?_⟩
  · intro us hus
    exact (hdetermines h k ws us hus).1
  · exact (hdetermines h k ws ws hsame).2 2 _ rfl

end RiscHart
