import CBuild.Model.Progress.Datagram

/-! # What a datagram acts through

A datagram is looked up in the whole buffer. One that is shorter than a word and begins like it is
completed by what the buffer held before; any other one acts through its own bytes.
-/

namespace CBuild.Soundness.DatagramBytes

open CBuild.Model.Progress

/-- The variables after a datagram that finds this buffer. -/
def outcome (buf : Buf) (datagram : Bytes) (alloc : Alloc) (v : Vars) : Except Fault Vars :=
  (processDatagram buf datagram alloc v).map Prod.fst

/-- What a datagram does is the same for all buffers that it finds, and no length of a copy is negative. -/
def OwnBytes (datagram : Bytes) : Prop :=
  ∀ alloc v buf buf', outcome buf datagram alloc v = outcome buf' datagram alloc v ∧
    outcome buf datagram alloc v ≠ .error .copyLength

/-- The datagram is the beginning of a word, and not all of it. -/
def Cut (datagram : Bytes) : Prop := ∃ message, datagram <+: Kind.word message ∧ datagram ≠ Kind.word message

variable {datagram : Bytes}

/-- A word that the datagram does not begin is found in the datagram or not at all. -/
theorem startsWith_write {word : Bytes} (uncut : ¬ (datagram <+: word ∧ datagram ≠ word)) (buf : Buf) :
    (buf.write datagram).startsWith word = decide (word <+: datagram) := by
  unfold Buf.startsWith
  rw [decide_eq_decide]
  by_cases long : word.length ≤ datagram.length
  · rw [slice_write buf (by omega), List.drop_zero, List.prefix_iff_eq_take]
    exact eq_comm
  · refine iff_of_false (fun found => uncut ?_) fun front => long front.length_le
    have front : datagram = word.take datagram.length := by
      calc datagram = (buf.write datagram).slice 0 datagram.length := by
            rw [slice_write buf (by omega), List.drop_zero, List.take_length]
        _ = ((buf.write datagram).slice 0 word.length).take datagram.length := by
            rw [slice_take, Nat.min_eq_left (by omega)]
        _ = word.take datagram.length := by rw [found]
    exact ⟨List.prefix_iff_eq_take.mpr front, fun same => long (by rw [same])⟩

theorem kind_write (uncut : ¬ Cut datagram) (buf buf' : Buf) :
    kind (buf.write datagram) = kind (buf'.write datagram) := by
  have each (message : Kind) (buf : Buf) : (buf.write datagram).startsWith message.word =
      decide (message.word <+: datagram) :=
    startsWith_write (fun front => uncut ⟨message, front⟩) buf
  simp only [kind, each]

/-- A message is found in a datagram that has all of its word. -/
theorem word_length_le (uncut : ¬ Cut datagram) {buf : Buf} {message : Kind}
    (found : kind (buf.write datagram) = message) : message.word.length ≤ datagram.length := by
  have each (message : Kind) : (buf.write datagram).startsWith message.word = true →
      message.word.length ≤ datagram.length := by
    intro starts
    rw [startsWith_write (fun front => uncut ⟨message, front⟩) buf, decide_eq_true_eq] at starts
    exact starts.length_le
  unfold kind at found
  split at found
  · subst found; exact each _ ‹_›
  split at found
  · subst found; exact each _ ‹_›
  split at found
  · subst found; exact each _ ‹_›
  split at found
  · subst found; exact each _ ‹_›
  · subst found; exact Nat.zero_le _

/-- The same messages, with the same numbers and names, are found in both buffers. -/
theorem processMessage_write (uncut : ¬ Cut datagram) (buf buf' : Buf) (alloc : Alloc) (v : Vars) :
    (processMessage (buf.write datagram) datagram.length alloc v).map Prod.fst =
      (processMessage (buf'.write datagram) datagram.length alloc v).map Prod.fst := by
  have same := kind_write uncut buf buf'
  unfold processMessage
  cases found : kind (buf.write datagram) <;> rw [found] at same <;> rw [← same]
  case stop | other => rfl
  case total =>
    have long : 6 ≤ datagram.length := word_length_le uncut found
    have number : ((buf.write datagram).set datagram.length 0).cstr (bufSize - 6) 6 =
        ((buf'.write datagram).set datagram.length 0).cstr (bufSize - 6) 6 := by
      refine cstr_congr (Function.update_self datagram.length ..) (fun i before => ?_) _ 6 long
      obtain last | inside := Nat.eq_or_lt_of_le before
      · simp only [last, Buf.set, Function.update_self]
      · simp only [Buf.set, Function.update_of_ne inside.ne, Buf.write, List.getD_eq_getElem _ _ inside]
    simp only [Except.map, number]
  case begins =>
    have long : 6 ≤ datagram.length := word_length_le uncut found
    have begun : beginPkg (buf.write datagram) datagram.length alloc v = beginPkg (buf'.write datagram) datagram.length alloc v := by
      rw [beginPkg, beginPkg, copyName_write long buf buf']
    simp only [begun]
    cases beginPkg (buf'.write datagram) datagram.length alloc v <;> rfl
  case ends =>
    have long : 4 ≤ datagram.length := word_length_le uncut found
    have ended : endPkg (buf.write datagram) datagram.length v = endPkg (buf'.write datagram) datagram.length v := by
      rw [endPkg, endPkg, copyName_write long buf buf']
    simp only [ended]
    split
    · cases endPkg (buf'.write datagram) datagram.length v <;> rfl
    · rfl

theorem endPkg_copyLength {buf : Buf} {num : ℕ} (long : 4 ≤ num) (v : Vars) :
    endPkg buf num v ≠ .error .copyLength := by
  obtain ⟨tmp, copied⟩ := copyName_ok buf long
  obtain ⟨fault, failed, other⟩ | ⟨after, line, ended, -⟩ := endPkg_cases v copied
  · rw [failed]
    exact fun same => other (Except.error.inj same)
  · rw [ended]
    exact nofun

/-- A name is copied only from a datagram that has all of its word. -/
theorem processMessage_copyLength (uncut : ¬ Cut datagram) (buf : Buf) (alloc : Alloc) (v : Vars) :
    (processMessage (buf.write datagram) datagram.length alloc v).map Prod.fst ≠ .error .copyLength := by
  unfold processMessage
  cases found : kind (buf.write datagram)
  case stop | total | other => exact nofun
  case begins =>
    have long : 6 ≤ datagram.length := word_length_le uncut found
    obtain ⟨tmp, copied⟩ := copyName_ok (buf.write datagram) long
    simp only [beginPkg, copied]
    cases alloc.node <;> exact nofun
  case ends =>
    have long : 4 ≤ datagram.length := word_length_le uncut found
    dsimp only
    split
    · have fault := @endPkg_copyLength (buf.write datagram) _ long v
      cases ended : endPkg (buf.write datagram) datagram.length v with
      | error other =>
        rw [ended] at fault
        exact fun failed => fault (congrArg _ (Except.error.inj failed))
      | ok result => exact nofun
    · exact nofun

/-- What completes a word in the buffer; the digit is for a total. -/
def completing (message : Kind) : Buf := zeros.write (message.word ++ ascii "7")

/-- The beginning of each word does something in a buffer that has the rest, and nothing among zeros. -/
theorem completed (message : Kind) : ∀ size < message.word.length, 0 < size →
    ¬ (outcome (completing message) (message.word.take size) {} { totalPkg := 1 } =
        outcome zeros (message.word.take size) {} { totalPkg := 1 } ∧
      outcome (completing message) (message.word.take size) {} { totalPkg := 1 } ≠ .error .copyLength) := by
  cases message <;> decide +kernel

/-- A datagram acts through its own bytes exactly when it is not the beginning of a word. -/
theorem ownBytes_iff (datagram : Bytes) (size : 1 ≤ datagram.length ∧ datagram.length ≤ 65507) :
    OwnBytes datagram ↔ ¬ Cut datagram := by
  constructor
  · rintro own ⟨message, front, part⟩
    have short : datagram.length < message.word.length :=
      lt_of_le_of_ne front.length_le fun same => part (front.eq_of_length same)
    refine completed message datagram.length short size.1 ?_
    rw [← List.prefix_iff_eq_take.mp front]
    exact own _ _ _ _
  · intro uncut alloc v buf buf'
    have received : datagram.take bufSize = datagram := List.take_of_length_le (by unfold bufSize; omega)
    have some : datagram ≠ [] := List.ne_nil_of_length_pos size.1
    simp only [outcome, processDatagram, received, if_neg some]
    exact ⟨processMessage_write uncut buf buf' alloc v, processMessage_copyLength uncut buf alloc v⟩

/-- A whole message acts through its own bytes. -/
theorem whole_ownBytes : (1 ≤ (ascii "total=12").length ∧ (ascii "total=12").length ≤ 65507) ∧
    OwnBytes (ascii "total=12") := by
  have uncut : ¬ Cut (ascii "total=12") := by
    rintro ⟨message, front, -⟩
    cases message <;> exact absurd front.length_le (by decide)
  exact ⟨by decide, (ownBytes_iff _ (by decide)).mpr uncut⟩

/-- The datagram `e` after `end=lib`: the name in the buffer is copied with a negative length. -/
theorem cut_end_copyLength :
    outcome (zeros.write (ascii "end=lib")) (ascii "e") {} { totalPkg := 3 } = .error .copyLength ∧
    outcome zeros (ascii "e") {} { totalPkg := 3 } = .ok { totalPkg := 3 } ∧ ¬ OwnBytes (ascii "e") := by
  have fault : outcome (zeros.write (ascii "end=lib")) (ascii "e") {} { totalPkg := 3 } = .error .copyLength := by
    decide +kernel
  exact ⟨fault, by decide +kernel, fun own => (own _ _ _ zeros).2 fault⟩

end CBuild.Soundness.DatagramBytes
