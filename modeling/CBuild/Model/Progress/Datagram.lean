import Mathlib

/-! # The datagrams of the progress bar

What `process_handler` of `progress.c` does with a datagram. The buffer is shared with the other
branches of its loop and never cleared: a datagram replaces as many bytes as it has, and the message
is looked up in the whole buffer. What C leaves undefined is a fault, and an int is in its range.
-/

namespace CBuild.Model.Progress

abbrev Byte := UInt8
abbrev Bytes := List Byte

def ascii (text : String) : Bytes := text.toList.map fun c => UInt8.ofNat c.toNat

def bufSize : ℕ := 65536
def tmpSize : ℕ := 128

/-- The buffer; what is behind its end is never read. -/
abbrev Buf := ℕ → Byte

def Buf.write (buf : Buf) (bytes : Bytes) : Buf := fun i => bytes.getD i (buf i)

def Buf.set (buf : Buf) (i : ℕ) (byte : Byte) : Buf := Function.update buf i byte

/-- The bytes from an offset. -/
def Buf.slice (buf : Buf) (offset size : ℕ) : Bytes := (List.range size).map fun i => buf (offset + i)

/-- `snprintf(buf, BUF_SIZE, ...)`. -/
def Buf.print (buf : Buf) (line : Bytes) : Buf := buf.write (line.take (bufSize - 1) ++ [0])

def zeros : Buf := fun _ => 0

/-- `strncmp(buf, word, strlen(word)) == 0`; the words have no zero byte. -/
def Buf.startsWith (buf : Buf) (word : Bytes) : Bool := buf.slice 0 word.length = word

/-- The string at an offset, at most so many bytes of it. -/
def Buf.cstr (buf : Buf) : ℕ → ℕ → Bytes
  | 0, _ => []
  | limit + 1, i => if buf i = 0 then [] else buf i :: buf.cstr limit (i + 1)

def intMin : ℤ := -2147483648
def intMax : ℤ := 2147483647

def digits (value : ℕ) : Bytes → ℕ
  | [] => value
  | byte :: rest => if 48 ≤ byte ∧ byte ≤ 57 then digits (10 * value + (byte.toNat - 48)) rest else value

def isSpace (byte : Byte) : Bool := byte = 32 || 9 ≤ byte && byte ≤ 13

/-- `strtol` in base ten, with the limits of a long. -/
def strtol (string : Bytes) : ℤ :=
  let value : ℤ := match string.dropWhile isSpace with
    | 45 :: rest => -digits 0 rest
    | 43 :: rest => digits 0 rest
    | rest => digits 0 rest
  max (-2 ^ 63) (min (2 ^ 63 - 1) value)

/-- `atoi`: the low bits of `strtol`. -/
def atoi (string : Bytes) : ℤ := (strtol string).bmod (2 ^ 32)

inductive Kind
  | stop | total | begins | ends | other
deriving DecidableEq

def Kind.word : Kind → Bytes
  | .stop => ascii "stop"
  | .total => ascii "total="
  | .begins => ascii "begin="
  | .ends => ascii "end="
  | .other => []

/-- The message that the buffer starts with. -/
def kind (buf : Buf) : Kind :=
  if buf.startsWith Kind.stop.word then .stop
  else if buf.startsWith Kind.total.word then .total
  else if buf.startsWith Kind.begins.word then .begins
  else if buf.startsWith Kind.ends.word then .ends
  else .other

/-- `struct pkg_node`; the name is `NULL` where `strdup` failed. -/
structure Pkg where
  name : Option Bytes
  len : ℕ
deriving DecidableEq

/-- The variables that datagrams change, besides the buffer. -/
structure Vars where
  running : Bool := true
  totalPkg : ℤ := 0
  finishedPkg : ℤ := 0
  percent : ℤ := 0
  livePkg : ℤ := 0
  pkgs : List Pkg := []
  ccnt : ℕ := 0
deriving DecidableEq

inductive Fault
  /-- a negative length of `memcpy` -/
  | copyLength
  | overflow
  | division
  /-- an index outside of `space` -/
  | barIndex
  /-- `NULL` is read or written through -/
  | null
  /-- more of a name is copied than it has -/
  | overread
deriving DecidableEq

/-- Whether `malloc` and `strdup` succeed for a package that begins. -/
structure Alloc where
  node : Bool := true
  name : Bool := true
deriving DecidableEq

def nameLength (num offset : ℕ) : ℤ := min (num - offset : ℤ) (tmpSize - 1)

/-- `tmp`: the name in the buffer without `_single`. -/
def copyName (buf : Buf) (offset num : ℕ) : Except Fault Bytes :=
  if nameLength num offset < 0 then .error .copyLength
  else
    let tmp := buf.slice offset (nameLength num offset).toNat
    .ok (if 7 < tmp.length ∧ tmp.drop (tmp.length - 7) = ascii "_single" then tmp.take (tmp.length - 7) else tmp)

/-- The string in `tmp`. -/
def cname (tmp : Bytes) : Bytes := tmp.takeWhile (· ≠ 0)

/-- `100 * finished_pkg / total_pkg`. -/
def percentOf (finishedPkg totalPkg : ℤ) : Except Fault ℤ :=
  if 100 * finishedPkg < intMin ∨ intMax < 100 * finishedPkg then .error .overflow
  else if totalPkg = 0 then .error .division
  else .ok ((100 * finishedPkg).tdiv totalPkg)

/-- The digits of a number. -/
def printed (n : ℕ) : Bytes := ascii (String.ofList (Nat.toDigits 10 n))

/-- `%<width>d`. -/
def decimal (width : ℕ) (n : ℤ) : Bytes :=
  let text := ascii (if n < 0 then "-" else "") ++ printed n.natAbs
  List.replicate (width - text.length) 32 ++ text

/-- The line of the progress bar. `space` has 51 blanks and a zero byte, and is cut at the index. -/
def barLine (percent finishedPkg totalPkg : ℤ) (tmp : Bytes) : Except Fault Bytes :=
  let counts := ascii "[" ++ decimal 3 finishedPkg ++ ascii "/" ++ decimal 3 totalPkg ++ ascii "] " ++ cname tmp
  if percent = 0 then
    .ok (ascii "[" ++ decimal 2 percent ++ ascii "%]" ++ List.replicate 50 32 ++ counts ++ ascii "\r")
  else if percent = 100 then
    .ok (ascii "[" ++ decimal 0 percent ++ ascii "%]\x1b[42m" ++ List.replicate 50 32 ++ ascii "\x1b[0m" ++
      counts ++ ascii "\n")
  else
    let index := percent.tdiv 2
    if index < 0 ∨ 51 < index + 1 then .error .barIndex
    else .ok (ascii "[" ++ decimal 2 percent ++ ascii "%]\x1b[42m" ++ List.replicate index.toNat 32 ++
      ascii "\x1b[0m" ++ List.replicate (50 - index.toNat) 32 ++ counts ++ ascii "\r")

/-- `begin=<name>`. -/
def beginPkg (buf : Buf) (num : ℕ) (alloc : Alloc) (v : Vars) : Except Fault Vars := do
  let tmp ← copyName buf 6 num
  if alloc.node then
    let name := if alloc.name then some (cname tmp) else none
    .ok { v with pkgs := v.pkgs ++ [⟨name, tmp.length⟩], livePkg := v.livePkg + 1 }
  else .error .null

/-- Whether a package of this name is in the list, compared one after the other. -/
def findPkg (name : Bytes) : List Pkg → Except Fault Bool
  | [] => .ok false
  | pkg :: rest =>
    match pkg.name with
    | none => .error .null
    | some other => if other = name then .ok true else findPkg name rest

/-- `end=<name>`: the counters, and the line that is printed through the buffer. -/
def endPkg (buf : Buf) (num : ℕ) (v : Vars) : Except Fault (Vars × Bytes) := do
  let finishedPkg := if v.finishedPkg < v.totalPkg then v.finishedPkg + 1 else v.finishedPkg
  let tmp ← copyName buf 4 num
  let found ← findPkg (cname tmp) v.pkgs
  let livePkg := if found then v.livePkg - 1 else v.livePkg
  let pkgs := v.pkgs.eraseP (·.name = some (cname tmp))
  let percent ← percentOf finishedPkg v.totalPkg
  let line ← barLine percent finishedPkg v.totalPkg tmp
  .ok ({ v with finishedPkg, livePkg, percent, pkgs, ccnt := 1 }, line)

/-- The message in the buffer, of which `num` bytes were received. -/
def processMessage (buf : Buf) (num : ℕ) (alloc : Alloc) (v : Vars) : Except Fault (Vars × Buf) :=
  match kind buf with
  | .stop => .ok ({ v with running := false }, buf)
  | .total =>
    let buf := buf.set num 0
    .ok ({ v with totalPkg := atoi (buf.cstr (bufSize - 6) 6) }, buf)
  | .begins => (beginPkg buf num alloc v).map fun v => (v, buf)
  | .ends =>
    if v.totalPkg ≠ 0 then (endPkg buf num v).map fun (v, line) => (v, buf.print line) else .ok (v, buf)
  | .other => .ok (v, buf)

/-- `ipv4_recvfrom`, and what follows. -/
def processDatagram (buf : Buf) (datagram : Bytes) (alloc : Alloc) (v : Vars) : Except Fault (Vars × Buf) :=
  let received := datagram.take bufSize
  if received = [] then .ok ({ v with running := false }, buf)
  else processMessage (buf.write received) received.length alloc v

theorem slice_write {bytes : Bytes} {offset size : ℕ} (buf : Buf) (inside : offset + size ≤ bytes.length) :
    (buf.write bytes).slice offset size = (bytes.drop offset).take size := by
  apply List.ext_getElem
  · simp only [Buf.slice, List.length_map, List.length_range, List.length_take, List.length_drop]
    omega
  · intro i below _
    simp only [Buf.slice, List.length_map, List.length_range] at below
    have position : offset + i < bytes.length := by omega
    simp only [Buf.slice, Buf.write, List.getElem_map, List.getElem_range, List.getElem_take, List.getElem_drop,
      List.getD_eq_getElem _ _ position]

theorem slice_take (buf : Buf) (offset size count : ℕ) :
    (buf.slice offset size).take count = buf.slice offset (min count size) := by
  simp only [Buf.slice, ← List.map_take, List.take_range]

/-- A string ends at the first zero byte, and nothing behind it is read. -/
theorem cstr_congr {buf buf' : Buf} {last : ℕ} (zero : buf last = 0) (same : ∀ i ≤ last, buf i = buf' i)
    (limit i : ℕ) (before : i ≤ last) : buf.cstr limit i = buf'.cstr limit i := by
  induction limit generalizing i with
  | zero => rfl
  | succ limit ih =>
    rw [Buf.cstr, Buf.cstr, ← same i before]
    by_cases stops : buf i = 0
    · rw [if_pos stops, if_pos stops]
    · have next : i + 1 ≤ last := by
        by_contra behind
        have : i = last := by omega
        exact stops (this ▸ zero)
      rw [if_neg stops, if_neg stops, ih (i + 1) next]

/-- Bytes that are no zeros are the string up to the zero that is set behind them. -/
theorem cstr_write {bytes : Bytes} (nonzero : ∀ byte ∈ bytes, byte ≠ 0) (buf : Buf) (limit i : ℕ)
    (enough : bytes.length ≤ i + limit) (inside : i ≤ bytes.length) :
    ((buf.write bytes).set bytes.length 0).cstr limit i = bytes.drop i := by
  induction limit generalizing i with
  | zero =>
    rw [Buf.cstr, List.drop_of_length_le (by omega)]
  | succ limit ih =>
    rw [Buf.cstr]
    obtain last | before := Nat.eq_or_lt_of_le inside
    · rw [if_pos (by rw [last]; exact Function.update_self ..), List.drop_of_length_le (by omega)]
    · have byte : (buf.write bytes).set bytes.length 0 i = bytes[i] := by
        rw [Buf.set, Function.update_of_ne before.ne, Buf.write, List.getD_eq_getElem _ _ before]
      rw [byte, if_neg (nonzero _ (List.getElem_mem before)), ih (i + 1) (by omega) before,
        List.getElem_cons_drop before]

theorem copyName_ok {num offset : ℕ} (buf : Buf) (long : offset ≤ num) :
    ∃ tmp, copyName buf offset num = .ok tmp := by
  rw [copyName, if_neg]
  · exact ⟨_, rfl⟩
  · simp only [nameLength, tmpSize]
    omega

theorem copyName_fault {num offset : ℕ} {buf : Buf} {fault : Fault}
    (failed : copyName buf offset num = .error fault) : fault = .copyLength := by
  unfold copyName at failed
  split at failed
  · cases failed
    rfl
  · cases failed

theorem copyName_write {datagram : Bytes} {offset : ℕ} (long : offset ≤ datagram.length) (buf buf' : Buf) :
    copyName (buf.write datagram) offset datagram.length = copyName (buf'.write datagram) offset datagram.length := by
  have inside : offset + (nameLength datagram.length offset).toNat ≤ datagram.length := by
    unfold nameLength
    omega
  unfold copyName
  rw [slice_write buf inside, slice_write buf' inside]

theorem digit_byte : ∀ digit < 10, UInt8.ofNat (Nat.digitChar digit).toNat = UInt8.ofNat (48 + digit) := by
  decide

theorem printed_digit {n : ℕ} (small : n < 10) : printed n = [UInt8.ofNat (48 + n)] := by
  rw [printed, ascii, String.toList_ofList, Nat.toDigits_of_lt_base small, List.map_cons, digit_byte n small,
    List.map_nil]

theorem printed_append {n : ℕ} (large : 10 ≤ n) : printed n = printed (n / 10) ++ [UInt8.ofNat (48 + n % 10)] := by
  simp only [printed, ascii, String.toList_ofList]
  rw [Nat.toDigits_of_base_le (by decide) large, List.map_append, List.map_cons,
    digit_byte (n % 10) (Nat.mod_lt n (by decide)), List.map_nil]

theorem digits_digit {digit : ℕ} (small : digit < 10) (value : ℕ) (rest : Bytes) :
    digits value (UInt8.ofNat (48 + digit) :: rest) = digits (10 * value + digit) rest := by
  have bounds : ∀ digit < 10, 48 ≤ UInt8.ofNat (48 + digit) ∧ UInt8.ofNat (48 + digit) ≤ 57 ∧
      (UInt8.ofNat (48 + digit)).toNat - 48 = digit := by decide
  obtain ⟨low, high, back⟩ := bounds digit small
  rw [digits, if_pos ⟨low, high⟩, back]

/-- A number that is printed is read again. -/
theorem digits_printed (n : ℕ) (rest : Bytes) : digits 0 (printed n ++ rest) = digits n rest := by
  induction n using Nat.strong_induction_on generalizing rest with
  | _ n ih =>
    by_cases small : n < 10
    · rw [printed_digit small, List.singleton_append, digits_digit small, Nat.mul_zero, Nat.zero_add]
    · rw [printed_append (by omega), List.append_assoc, ih (n / 10) (by omega), List.singleton_append,
        digits_digit (Nat.mod_lt n (by decide)), Nat.div_add_mod]

theorem printed_bounds (n : ℕ) : ∀ byte ∈ printed n, 48 ≤ byte ∧ byte ≤ 57 := by
  have bounds : ∀ digit < 10, 48 ≤ UInt8.ofNat (48 + digit) ∧ UInt8.ofNat (48 + digit) ≤ 57 := by decide
  induction n using Nat.strong_induction_on with
  | _ n ih =>
    intro byte member
    by_cases small : n < 10
    · rw [printed_digit small, List.mem_singleton] at member
      rw [member]
      exact bounds n small
    · rw [printed_append (by omega), List.mem_append, List.mem_singleton] at member
      obtain front | rfl := member
      · exact ih (n / 10) (by omega) byte front
      · exact bounds _ (Nat.mod_lt n (by decide))

theorem printed_length_le_iff (n : ℕ) {count : ℕ} (positive : 0 < count) :
    (printed n).length ≤ count ↔ n < 10 ^ count := by
  rw [printed, ascii, String.toList_ofList, List.length_map, Nat.length_toDigits_le_iff (by decide) positive]

theorem printed_ne_nil (n : ℕ) : printed n ≠ [] := by
  rw [printed, ascii, String.toList_ofList]
  exact mt List.map_eq_nil_iff.mp Nat.toDigits_ne_nil

theorem strtol_printed {n : ℕ} (small : n < 2 ^ 32) : strtol (printed n) = n := by
  have number : digits 0 (printed n) = n := by
    have := digits_printed n []
    rwa [List.append_nil] at this
  obtain ⟨first, rest, split⟩ := List.exists_cons_of_ne_nil (printed_ne_nil n)
  have bounds : 48 ≤ first ∧ first ≤ 57 := printed_bounds n first (by rw [split]; exact List.mem_cons_self)
  have noSpace : isSpace first = false := by
    have blank : first ≠ 32 := by rintro rfl; exact absurd bounds.1 (by decide)
    have control : ¬ first ≤ 13 := fun below => absurd (UInt8.le_trans bounds.1 below) (by decide)
    simp [isSpace, blank, control]
  have value : strtol (printed n) = max (-2 ^ 63) (min (2 ^ 63 - 1) (digits 0 (printed n) : ℤ)) := by
    rw [strtol, split, List.dropWhile_cons_of_neg (by rw [noSpace]; decide)]
    split
    · next same => cases same; exact absurd bounds.1 (by decide)
    · next same => cases same; exact absurd bounds.1 (by decide)
    · rfl
  rw [value, number]
  omega

theorem atoi_printed {n : ℕ} (small : n < 2 ^ 31) : atoi (printed n) = n := by
  rw [atoi, strtol_printed (by omega), Int.bmod_eq_of_le (by omega) (by omega)]

/-- `finished_pkg` after an `end=` message. -/
def nextFinished (v : Vars) : ℤ := if v.finishedPkg < v.totalPkg then v.finishedPkg + 1 else v.finishedPkg

theorem percentOf_error {finishedPkg totalPkg : ℤ} {fault : Fault}
    (failed : percentOf finishedPkg totalPkg = .error fault) : fault = .overflow ∨ fault = .division := by
  unfold percentOf at failed
  split at failed
  · cases failed
    exact Or.inl rfl
  split at failed
  · cases failed
    exact Or.inr rfl
  · cases failed

theorem barLine_error {percent finishedPkg totalPkg : ℤ} {tmp : Bytes} {fault : Fault}
    (failed : barLine percent finishedPkg totalPkg tmp = .error fault) : fault = .barIndex := by
  unfold barLine at failed
  dsimp only at failed
  split at failed
  · cases failed
  split at failed
  · cases failed
  split at failed
  · cases failed
    rfl
  · cases failed

theorem findPkg_error {name : Bytes} {pkgs : List Pkg} {fault : Fault}
    (failed : findPkg name pkgs = .error fault) : fault = .null := by
  induction pkgs with
  | nil => cases failed
  | cons pkg rest ih =>
    rw [findPkg] at failed
    split at failed
    · cases failed
      rfl
    split at failed
    · cases failed
    · exact ih failed

/-- The package that ends is counted, and the percentage computed. -/
theorem endPkg_eq {buf : Buf} {num : ℕ} {tmp : Bytes} (v : Vars) (copied : copyName buf 4 num = .ok tmp) :
    endPkg buf num v =
      (findPkg (cname tmp) v.pkgs).bind fun found =>
        (percentOf (nextFinished v) v.totalPkg).bind fun percent =>
          (barLine percent (nextFinished v) v.totalPkg tmp).bind fun line =>
            .ok ({ v with
              finishedPkg := nextFinished v
              livePkg := if found then v.livePkg - 1 else v.livePkg
              percent, pkgs := v.pkgs.eraseP (·.name = some (cname tmp)), ccnt := 1 }, line) := by
  rw [endPkg, copied]
  rfl

/-- Where the name is copied, a package that ends is finished, or there is a fault of another kind. -/
theorem endPkg_cases {buf : Buf} {num : ℕ} {tmp : Bytes} (v : Vars) (copied : copyName buf 4 num = .ok tmp) :
    (∃ fault, endPkg buf num v = .error fault ∧ fault ≠ .copyLength) ∨
      ∃ after line, endPkg buf num v = .ok (after, line) ∧ after.finishedPkg = nextFinished v ∧
        after.running = v.running := by
  rw [endPkg_eq v copied]
  cases known : findPkg (cname tmp) v.pkgs with
  | error fault => exact Or.inl ⟨fault, rfl, by rw [findPkg_error known]; decide⟩
  | ok found =>
    cases quotient : percentOf (nextFinished v) v.totalPkg with
    | error fault => exact Or.inl ⟨fault, rfl, by obtain rfl | rfl := percentOf_error quotient <;> decide⟩
    | ok percent =>
      cases drawn : barLine percent (nextFinished v) v.totalPkg tmp with
      | error fault =>
        refine Or.inl ⟨fault, ?_, by rw [barLine_error drawn]; decide⟩
        simp only [Except.bind, drawn]
      | ok line =>
        simp only [Except.bind, drawn]
        exact Or.inr ⟨_, line, rfl, rfl, rfl⟩

theorem endPkg_ok {v after : Vars} {num : ℕ} {buf : Buf} {line : Bytes}
    (ended : endPkg buf num v = .ok (after, line)) :
    after.finishedPkg = nextFinished v ∧ after.running = v.running := by
  cases copied : copyName buf 4 num with
  | error fault => rw [endPkg, copied] at ended; cases ended
  | ok tmp =>
    obtain ⟨fault, failed, -⟩ | ⟨after', line', ended', kept⟩ := endPkg_cases v copied
    · cases failed.symm.trans ended
    · cases ended'.symm.trans ended
      exact kept

theorem beginPkg_ok {v after : Vars} {num : ℕ} {buf : Buf} {alloc : Alloc}
    (begun : beginPkg buf num alloc v = .ok after) :
    after.finishedPkg = v.finishedPkg ∧ after.running = v.running := by
  unfold beginPkg at begun
  cases copied : copyName buf 6 num with
  | error fault => rw [copied] at begun; cases begun
  | ok tmp =>
    rw [copied] at begun
    cases node : alloc.node <;> simp only [node, Bool.false_eq_true, if_false, if_true] at begun
    · cases begun
    · cases begun
      exact ⟨rfl, rfl⟩

end CBuild.Model.Progress
