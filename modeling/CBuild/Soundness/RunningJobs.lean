import CBuild.Soundness.JobList

/-! # The running jobs

After a first total, a list of the names that have begun and not ended is kept in memory, in the order in which they
began.
-/

namespace CBuild.Soundness.RunningJobs

open CBuild.Model.Progress JobList

inductive Event where
  | total (number : Bytes)
  | begins (name : Bytes)
  | ends (name : Bytes)

namespace Event

def message : Event → Kind
  | .total _ => .total
  | .begins _ => .begins
  | .ends _ => .ends

def text : Event → Bytes
  | .total number => number
  | .begins name => name
  | .ends name => name

/-- The bytes that are received. -/
def datagram (event : Event) : Bytes := event.message.word ++ event.text

def number (text : Bytes) : ℤ := atoi (cname (text.take (bufSize - 6)))

/-- A number that is not zero, or a name that is not empty and has no zero byte. -/
def Proper : Event → Prop
  | .total text => number text ≠ 0
  | .begins name => name ≠ [] ∧ 0 ∉ name
  | .ends name => name ≠ [] ∧ 0 ∉ name

end Event

/-- A name of at most 127 bytes, without `_single` at its end. -/
def stripped (name : Bytes) : Bytes :=
  let front := name.take 127
  if ascii "_single" <:+ front then front.take (front.length - 7) else front

def shown (name : Bytes) : Bytes := if name = ascii "_single" then name else stripped name

/-- The names after an event: an end takes the first of its name. -/
def track (short : Bytes → Bytes) (names : List Bytes) : Event → List Bytes
  | .total _ => names
  | .begins name => names ++ [short name]
  | .ends name => names.erase (short name)

/-- The names that have begun and not ended. -/
def listed (short : Bytes → Bytes) (events : List Event) : List Bytes := events.foldl (track short) []

/-- What is received, what the buffer held before, and where `malloc` finds a node. -/
structure Arrival where
  event : Event
  buf : Buf
  addr : ℕ

def receive (turns : ℕ) (jobs : Jobs) (arrival : Arrival) : Except Failure Jobs :=
  processJobDatagram turns arrival.buf arrival.event.datagram arrival.addr jobs

def run (turns : ℕ) (arrivals : List Arrival) : Except Failure Jobs := arrivals.foldlM (receive turns) {}

def pkgOf (name : Bytes) : Pkg := ⟨some name, name.length⟩

/-- The nodes that are linked from the head are the names, in their order. -/
def Exact (names : List Bytes) (jobs : Jobs) : Prop :=
  ∃ entries, Represents jobs.heap entries ∧ entries.map Prod.snd = names.map pkgOf ∧ jobs.livePkg = names.length

/-- The clean-up frees what is allocated, each node once. -/
def CleansUp (turns : ℕ) (jobs : Jobs) : Prop :=
  ∃ after freed, exitJobs turns jobs = .ok (after, freed) ∧ freed.Nodup ∧
    (∀ addr, addr ∈ freed ↔ (jobs.heap.cells addr).isSome) ∧ ∀ addr, after.cells addr = none

variable {names : List Bytes} {name rest : Bytes} {buf : Buf} {event : Event} {v : Vars}

/-- The words begin with different bytes. -/
theorem startsWith_word {message wanted : Kind} (word : wanted.word ≠ [])
    (apart : message.word.head? ≠ wanted.word.head?)
    (some : message.word ≠ []) : (buf.write (message.word ++ rest)).startsWith wanted.word = false := by
  have heads {front bytes : Bytes} (nonempty : front ≠ []) (begins : front <+: bytes) : bytes.head? = front.head? := by
    obtain ⟨tail, rfl⟩ := begins
    exact List.head?_append_of_ne_nil _ nonempty
  have own := heads some (List.prefix_append message.word rest)
  rw [DatagramBytes.startsWith_write]
  · exact decide_eq_false fun front => apart (own.symm.trans (heads word front))
  · exact fun both => apart (own.symm.trans (heads (List.append_ne_nil_of_left_ne_nil some _) both.1).symm)

theorem startsWith_own (message : Kind) : (buf.write (message.word ++ rest)).startsWith message.word = true := by
  unfold Buf.startsWith
  rw [slice_write buf (by rw [List.length_append]; omega), List.drop_zero, List.take_left']
  · exact decide_eq_true rfl
  · rfl

theorem word_ne_nil (event : Event) : event.message.word ≠ [] := by
  have words : ∀ message : Kind, message ≠ .other → message.word ≠ [] := by
    intro message
    cases message <;> decide
  exact words event.message (by cases event <;> exact nofun)

theorem kind_word (event : Event) : kind (buf.write (event.message.word ++ rest)) = event.message := by
  unfold kind
  cases event with
  | total | begins | ends =>
    simp only [Event.message, startsWith_own, if_true]
    repeat rw [startsWith_word (by decide) (by decide) (by decide)]
    rfl

theorem received_eq (event : Event) : event.datagram.take bufSize =
    event.message.word ++ event.text.take (bufSize - event.message.word.length) := by
  unfold Event.datagram
  have short (message : Kind) : message.word.length ≤ bufSize := by cases message <;> decide
  rw [List.take_append, List.take_of_length_le (short event.message)]

/-- The string behind the word ends at a zero byte, or at the one that is set. -/
theorem cstr_cname (bytes : Bytes) (buf : Buf) (limit i : ℕ) (enough : bytes.length ≤ i + limit)
    (inside : i ≤ bytes.length) : ((buf.write bytes).set bytes.length 0).cstr limit i = cname (bytes.drop i) := by
  induction limit generalizing i with
  | zero =>
    rw [Buf.cstr, List.drop_of_length_le (by omega)]
    rfl
  | succ limit ih =>
    rw [Buf.cstr]
    obtain last | before := Nat.eq_or_lt_of_le inside
    · rw [if_pos (by rw [last]; exact Function.update_self ..), List.drop_of_length_le (by omega)]
      rfl
    · have byte : (buf.write bytes).set bytes.length 0 i = bytes[i] := by
        rw [Buf.set, Function.update_of_ne before.ne, Buf.write, List.getD_eq_getElem _ _ before]
      rw [byte, ih (i + 1) (by omega) before, ← List.getElem_cons_drop before]
      unfold cname
      by_cases zero : bytes[i] = 0
      · rw [if_pos zero, List.takeWhile_cons_of_neg (by simpa using zero)]
      · rw [if_neg zero, List.takeWhile_cons_of_pos (by simpa using zero)]

theorem total_number (text : Bytes) (buf : Buf) :
    atoi (((buf.write (Kind.total.word ++ text.take (bufSize - 6))).set
      (Kind.total.word ++ text.take (bufSize - 6)).length 0).cstr (bufSize - 6) 6) = Event.number text := by
  have word : Kind.total.word.length = 6 := by decide
  have long : (Kind.total.word ++ text.take (bufSize - 6)).length = 6 + (text.take (bufSize - 6)).length := by
    rw [List.length_append, word]
  have short := List.length_take_le (bufSize - 6) text
  rw [cstr_cname _ buf _ 6 (by omega) (by omega), List.drop_left' word]
  rfl

/-- What is stripped is the end of a name of more than seven bytes. -/
theorem shown_eq (name : Bytes) : (if 7 < (name.take 127).length ∧
    (name.take 127).drop ((name.take 127).length - 7) = ascii "_single" then
      (name.take 127).take ((name.take 127).length - 7) else name.take 127) = shown name := by
  have seven : (ascii "_single").length = 7 := by decide
  unfold shown
  by_cases same : name = ascii "_single"
  · subst same
    decide
  rw [if_neg same]
  unfold stripped
  dsimp only
  have ends : ascii "_single" <:+ name.take 127 ↔
      7 < (name.take 127).length ∧ (name.take 127).drop ((name.take 127).length - 7) = ascii "_single" := by
    rw [List.suffix_iff_eq_drop, seven]
    refine ⟨fun found => ⟨?_, found.symm⟩, fun found => found.2.symm⟩
    by_contra short
    have whole : name.take 127 = ascii "_single" := by
      rw [found, show (name.take 127).length - 7 = 0 by omega, List.drop_zero]
    have few := congrArg List.length whole
    rw [seven, List.length_take] at few
    exact same ((List.take_of_length_le (by omega)).symm.trans whole)
  exact if_congr ends.symm rfl rfl

theorem copyName_shown {word : Bytes} {size : ℕ} (large : 127 ≤ size) (name : Bytes) (buf : Buf) :
    copyName (buf.write (word ++ name.take size)) word.length (word ++ name.take size).length = .ok (shown name) := by
  have count : nameLength (word ++ name.take size).length word.length = (min (name.take size).length 127 : ℕ) := by
    unfold nameLength tmpSize
    rw [List.length_append]
    omega
  have slice : (buf.write (word ++ name.take size)).slice word.length (min (name.take size).length 127) =
      name.take 127 := by
    rw [slice_write buf (by rw [List.length_append]; omega), List.drop_left, Nat.min_comm, ← List.take_eq_take_min,
      List.take_take, Nat.min_eq_left large]
  unfold copyName
  rw [count, if_neg (by omega), Int.toNat_natCast, slice]
  exact congrArg Except.ok (shown_eq name)

theorem mem_of_mem_shown {byte : Byte} (member : byte ∈ shown name) : byte ∈ name := by
  unfold shown stripped at member
  dsimp only at member
  split at member
  · exact member
  split at member
  · exact List.mem_of_mem_take (List.mem_of_mem_take member)
  · exact List.mem_of_mem_take member

theorem cname_shown (text : 0 ∉ name) : cname (shown name) = shown name :=
  List.takeWhile_eq_self_iff.mpr fun _ member =>
    decide_eq_true fun zero => text (zero ▸ mem_of_mem_shown member)

theorem findPkg_names (name : Bytes) (names : List Bytes) :
    findPkg name (names.map pkgOf) = .ok (decide (name ∈ names)) := by
  induction names with
  | nil => rfl
  | cons first names ih =>
    rw [List.map_cons, findPkg]
    change (if first = name then _ else _) = _
    by_cases same : first = name
    · rw [if_pos same, decide_eq_true (same ▸ List.mem_cons_self ..)]
    · rw [if_neg same, ih]
      exact congrArg Except.ok (decide_eq_decide.mpr (by rw [List.mem_cons, or_iff_right (Ne.symm same)]))

theorem erase_names (name : Bytes) (names : List Bytes) :
    (names.map pkgOf).eraseP (fun pkg => pkg.name = some name) = (names.erase name).map pkgOf := by
  rw [List.eraseP_map, List.erase_eq_eraseP]
  refine congrArg (List.map pkgOf) (congrArg (List.eraseP · names) ?_)
  funext first
  change decide (some first = some name) = (name == first)
  rw [Bool.eq_iff_iff, decide_eq_true_iff, Option.some_inj, beq_iff_eq]
  exact eq_comm

theorem length_erase (name : Bytes) (names : List Bytes) :
    ((names.erase name).length : ℤ) = if name ∈ names then (names.length : ℤ) - 1 else names.length := by
  by_cases member : name ∈ names
  · have some := List.length_pos_of_mem member
    rw [if_pos member, List.length_erase_of_mem member]
    omega
  · rw [if_neg member, List.erase_of_not_mem member]

/-- The packages of the list and their number. -/
structure Lists (names : List Bytes) (v : Vars) : Prop where
  pkgs : v.pkgs = names.map pkgOf
  live : v.livePkg = names.length

/-- The line of the progress bar cannot be drawn. -/
def Undrawn (fault : Fault) : Prop := fault = .overflow ∨ fault = .barIndex

theorem percentOf_undrawn {finished total : ℤ} {fault : Fault} (counted : total ≠ 0)
    (failed : percentOf finished total = .error fault) : Undrawn fault := by
  unfold percentOf at failed
  split at failed
  · cases failed
    exact Or.inl rfl
  cases failed

theorem begins_spec (lists : Lists names v) (proper : 0 ∉ name) (buf : Buf) :
    ∃ after, beginPkg (buf.write (Kind.begins.word ++ name.take (bufSize - 6)))
        (Kind.begins.word ++ name.take (bufSize - 6)).length {} v = .ok after ∧
      Lists (names ++ [shown name]) after ∧ after.totalPkg = v.totalPkg := by
  have copied := @copyName_shown Kind.begins.word (bufSize - 6) (by decide) name buf
  change copyName _ 6 _ = _ at copied
  refine ⟨{ v with pkgs := v.pkgs ++ [pkgOf (shown name)], livePkg := v.livePkg + 1 }, ?_, ⟨?_, ?_⟩, rfl⟩
  · unfold beginPkg
    rw [copied]
    dsimp only [bind, Except.bind]
    rw [cname_shown proper]
    rfl
  · rw [List.map_append, ← lists.pkgs]
    rfl
  · rw [List.length_append, Nat.cast_add, ← lists.live]
    rfl

theorem ends_spec (lists : Lists names v) (counted : v.totalPkg ≠ 0) (proper : 0 ∉ name) (buf : Buf) :
    (∃ fault, endPkg (buf.write (Kind.ends.word ++ name.take (bufSize - 4)))
        (Kind.ends.word ++ name.take (bufSize - 4)).length v = .error fault ∧ Undrawn fault) ∨
    ∃ after line, endPkg (buf.write (Kind.ends.word ++ name.take (bufSize - 4)))
        (Kind.ends.word ++ name.take (bufSize - 4)).length v = .ok (after, line) ∧
      Lists (names.erase (shown name)) after ∧ after.totalPkg = v.totalPkg := by
  have copied := @copyName_shown Kind.ends.word (bufSize - 4) (by decide) name buf
  change copyName _ 4 _ = _ at copied
  rw [endPkg_eq v copied, cname_shown proper, lists.pkgs, findPkg_names]
  dsimp only [Except.bind]
  cases quotient : percentOf (nextFinished v) v.totalPkg with
  | error fault => exact Or.inl ⟨fault, rfl, percentOf_undrawn counted quotient⟩
  | ok percent =>
    dsimp only
    cases drawn : barLine percent (nextFinished v) v.totalPkg (shown name) with
    | error fault => exact Or.inl ⟨fault, rfl, Or.inr (barLine_error drawn)⟩
    | ok line =>
      refine Or.inr ⟨_, line, rfl, ⟨erase_names (shown name) names, ?_⟩, rfl⟩
      rw [length_erase, lists.live]
      exact if_congr (decide_eq_true_iff) rfl rfl

/-- One message: the names are tracked, or the line is not drawn. -/
theorem message_spec (lists : Lists names v) (proper : event.Proper) (counted : v.totalPkg ≠ 0 ∨ event.message = .total)
    (buf : Buf) : let bytes := event.datagram.take bufSize
    (∃ fault, processMessage (buf.write bytes) bytes.length {} v = .error fault ∧ Undrawn fault) ∨
    ∃ after buf', processMessage (buf.write bytes) bytes.length {} v = .ok (after, buf') ∧
      Lists (track shown names event) after ∧ after.totalPkg ≠ 0 := by
  dsimp only
  rw [received_eq]
  unfold processMessage
  rw [kind_word]
  cases event with
  | total number =>
    refine Or.inr ⟨_, _, rfl, ⟨lists.pkgs, lists.live⟩, ?_⟩
    dsimp only
    exact (total_number number buf).trans_ne proper
  | begins name =>
    obtain ⟨after, begun, lists', same⟩ := begins_spec lists proper.2 buf
    refine Or.inr ⟨after, _, congrArg (Except.map fun v => (v, _)) begun, lists', ?_⟩
    rw [same]
    exact counted.resolve_right nofun
  | ends name =>
    have counted' := counted.resolve_right nofun
    dsimp only [Event.message]
    rw [if_pos counted']
    obtain ⟨fault, failed, undrawn⟩ | ⟨after, line, ended, lists', same⟩ := ends_spec lists counted' proper.2 buf
    · exact Or.inl ⟨fault, congrArg (Except.map _) failed, undrawn⟩
    · refine Or.inr ⟨after, _, congrArg (Except.map _) ended, lists', ?_⟩
      rwa [same]

variable {turns : ℕ} {jobs : Jobs} {arrival : Arrival} {arrivals : List Arrival}

/-- How a run ends that does not go on: `malloc` gives out what is in use, or the line is not drawn. -/
def Stops (failure : Failure) : Prop := failure = .busy ∨ ∃ fault, failure = .fault fault ∧ Undrawn fault

/-- One datagram: the list in memory tracks the names. -/
theorem receive_spec (exact : Exact names jobs) (proper : arrival.event.Proper)
    (counted : jobs.totalPkg ≠ 0 ∨ arrival.event.message = .total) (enough : names.length < turns) :
    (∃ failure, receive turns jobs arrival = .error failure ∧ Stops failure) ∨
    ∃ after, receive turns jobs arrival = .ok after ∧ Exact (track shown names arrival.event) after ∧
      after.totalPkg ≠ 0 := by
  obtain ⟨entries, represents, pkgs, live⟩ := exact
  have sizes : entries.length = names.length := by
    have same := congrArg List.length pkgs
    rwa [List.length_map, List.length_map] at same
  have lists : Lists names (vars jobs (entries.map Prod.snd)) := ⟨pkgs, live⟩
  have some : arrival.event.datagram.take bufSize ≠ [] := by
    rw [received_eq]
    exact List.append_ne_nil_of_left_ne_nil (word_ne_nil arrival.event) _
  unfold receive processJobDatagram
  dsimp only
  rw [if_neg some]
  obtain busy | ⟨fault, failed, failed'⟩ | ⟨after, entries', buf', done, represents', done'⟩ :=
    @processJob_refines arrival.addr entries jobs turns (arrival.event.datagram.take bufSize).length
      (arrival.buf.write (arrival.event.datagram.take bufSize)) represents (by omega)
  · exact Or.inl ⟨_, busy, Or.inl rfl⟩
  · refine Or.inl ⟨_, failed, Or.inr ⟨fault, rfl, ?_⟩⟩
    obtain ⟨fault', other, undrawn⟩ | ⟨after, buf', other, -⟩ := message_spec lists proper counted arrival.buf
    · cases failed'.symm.trans other
      exact undrawn
    · cases failed'.symm.trans other
  · refine Or.inr ⟨after, done, ?_⟩
    obtain ⟨fault', other, -⟩ | ⟨result, buf'', other, lists', counted'⟩ := message_spec lists proper counted arrival.buf
    · cases done'.symm.trans other
    · cases done'.symm.trans other
      exact ⟨⟨entries', represents', lists'.pkgs, lists'.live⟩, counted'⟩

theorem track_length (short : Bytes → Bytes) (names : List Bytes) (event : Event) :
    (track short names event).length ≤ names.length + 1 := by
  cases event with
  | total => exact Nat.le_succ _
  | begins name => exact (List.length_append ..).le
  | ends name => exact ((List.erase_sublist ..).length_le).trans (Nat.le_succ _)

theorem foldlM_exact (exact : Exact names jobs) (counted : jobs.totalPkg ≠ 0)
    (proper : ∀ arrival ∈ arrivals, arrival.event.Proper) (enough : names.length + arrivals.length < turns) :
    (∃ failure, arrivals.foldlM (receive turns) jobs = .error failure ∧ Stops failure) ∨
    ∃ after, arrivals.foldlM (receive turns) jobs = .ok after ∧
      Exact ((arrivals.map Arrival.event).foldl (track shown) names) after := by
  induction arrivals generalizing names jobs with
  | nil => exact Or.inr ⟨jobs, rfl, exact⟩
  | cons arrival arrivals ih =>
    obtain ⟨here, later⟩ := List.forall_mem_cons.mp proper
    rw [List.length_cons] at enough
    rw [List.foldlM_cons, List.map_cons, List.foldl_cons]
    obtain ⟨failure, failed, stops⟩ | ⟨after, done, exact', counted'⟩ :=
      @receive_spec names turns jobs arrival exact here (Or.inl counted) (by omega)
    · exact Or.inl ⟨failure, by rw [failed]; rfl, stops⟩
    · have fewer := track_length shown names arrival.event
      rw [done]
      exact ih exact' counted' later (by omega)

/-- The clean-up loop has one turn for each node, and one to see the head. -/
theorem cleansUp {entries : List (ℕ × Pkg)} (represents : Represents jobs.heap entries)
    (enough : entries.length < turns) : CleansUp turns jobs := by
  obtain ⟨after, cleaned, empty⟩ := cleanUp_spec represents enough
  have allocated (addr : ℕ) : (jobs.heap.cells addr).isSome ↔ (pkgAt jobs.heap addr).isSome := by
    unfold pkgAt
    rw [Option.isSome_map]
  refine ⟨after, _, (forEach_eq represents _).trans cleaned, represents.distinct, fun addr => ?_, fun addr => ?_⟩
  · rw [allocated]
    refine ⟨fun member => ?_, represents.only addr⟩
    obtain ⟨entry, there, rfl⟩ := List.mem_map.mp member
    rw [represents.contents entry there]
    rfl
  · by_contra used
    have listed := empty.only addr (by
      unfold pkgAt
      rw [Option.isSome_map]
      exact Option.isSome_iff_ne_none.mpr used)
    cases listed

theorem listed_length (short : Bytes → Bytes) (events : List Event) (names : List Bytes) :
    (events.foldl (track short) names).length ≤ names.length + events.length := by
  induction events generalizing names with
  | nil => exact Nat.le_refl _
  | cons event events ih =>
    have one := track_length short names event
    have rest := ih (track short names event)
    rw [List.foldl_cons, List.length_cons]
    omega

/-- After each datagram the list is exact and can be cleaned up, unless the run has stopped. -/
theorem jobs_exact {first : Arrival} (total : first.event.message = .total)
    (proper : ∀ arrival ∈ first :: arrivals, arrival.event.Proper) (enough : arrivals.length + 1 < turns) :
    (∃ failure, run turns (first :: arrivals) = .error failure ∧ Stops failure) ∨
    ∃ jobs, run turns (first :: arrivals) = .ok jobs ∧
      Exact (listed shown ((first :: arrivals).map Arrival.event)) jobs ∧ CleansUp turns jobs := by
  obtain ⟨here, later⟩ := List.forall_mem_cons.mp proper
  have empty : Exact [] {} := ⟨[], represents_init, rfl, rfl⟩
  unfold run
  rw [List.foldlM_cons]
  obtain ⟨failure, failed, stops⟩ | ⟨after, done, exact, counted⟩ :=
    @receive_spec [] turns {} first empty here (Or.inr total) (Nat.zero_lt_of_lt enough)
  · exact Or.inl ⟨failure, by rw [failed]; rfl, stops⟩
  have start : track shown [] first.event = [] := by
    cases event : first.event with
    | total => rfl
    | begins | ends => rw [event] at total; cases total
  rw [start] at exact
  rw [done]
  have short := listed_length shown (arrivals.map Arrival.event) []
  rw [List.length_map, List.length_nil] at short
  obtain ⟨failure, failed, stops⟩ | ⟨jobs, done', exact'⟩ :=
    @foldlM_exact [] turns after arrivals exact counted later (by rw [List.length_nil]; omega)
  · exact Or.inl ⟨failure, failed, stops⟩
  · obtain ⟨entries, represents, pkgs, -⟩ := id exact'
    have sizes := congrArg List.length pkgs
    rw [List.length_map, List.length_map] at sizes
    refine Or.inr ⟨jobs, done', ?_, cleansUp represents (by omega)⟩
    unfold listed
    rwa [List.map_cons, List.foldl_cons, start]

private def of (event : Event) (addr : ℕ) : Arrival := ⟨event, zeros, addr⟩

private def twice : List Arrival :=
  [of (.begins (ascii "lib")) 1, of (.begins (ascii "app_single")) 2, of (.begins (ascii "lib")) 3,
    of (.ends (ascii "lib")) 0]

theorem twice_exact : ∃ jobs, run 6 (of (.total (ascii "3")) 0 :: twice) = .ok jobs ∧
    Exact [ascii "app", ascii "lib"] jobs ∧ CleansUp 6 jobs := by
  have proper : ∀ arrival ∈ of (.total (ascii "3")) 0 :: twice, arrival.event.Proper := by
    have number : Event.number (ascii "3") ≠ 0 := by decide +kernel
    have lib : ascii "lib" ≠ [] ∧ 0 ∉ ascii "lib" := by decide
    have app : ascii "app_single" ≠ [] ∧ 0 ∉ ascii "app_single" := by decide
    exact List.forall_mem_cons.mpr ⟨number, List.forall_mem_cons.mpr ⟨lib, List.forall_mem_cons.mpr ⟨app,
      List.forall_mem_cons.mpr ⟨lib, List.forall_mem_cons.mpr ⟨lib, nofun⟩⟩⟩⟩⟩
  obtain ⟨failure, failed, -⟩ | ⟨jobs, done, exact, cleans⟩ :=
    @jobs_exact 6 twice (of (.total (ascii "3")) 0) rfl proper (by decide)
  · have fine : (run 6 (of (.total (ascii "3")) 0 :: twice)).toOption.isSome = true := by decide +kernel
    rw [failed] at fine
    cases fine
  · have names : listed shown ((of (.total (ascii "3")) 0 :: twice).map Arrival.event) = [ascii "app", ascii "lib"] := by
      decide +kernel
    exact ⟨jobs, done, names ▸ exact, cleans⟩

/-- The name `_single` is in the list as it is. -/
theorem single_kept : ¬ ∀ (turns : ℕ) (first : Arrival) (arrivals : List Arrival), first.event.message = .total →
    (∀ arrival ∈ first :: arrivals, arrival.event.Proper) → arrivals.length + 1 < turns →
    ∀ jobs, run turns (first :: arrivals) = .ok jobs →
      Exact (listed stripped ((first :: arrivals).map Arrival.event)) jobs := by
  intro claimed
  have proper : ∀ arrival ∈ [of (.total (ascii "1")) 0, of (.begins (ascii "_single")) 1], arrival.event.Proper := by
    have number : Event.number (ascii "1") ≠ 0 := by decide +kernel
    have single : ascii "_single" ≠ [] ∧ 0 ∉ ascii "_single" := by decide
    exact List.forall_mem_cons.mpr ⟨number, List.forall_mem_cons.mpr ⟨single, nofun⟩⟩
  have kept : (run 3 [of (.total (ascii "1")) 0, of (.begins (ascii "_single")) 1]).toOption.bind
      (fun jobs => pkgAt jobs.heap 1) = some ⟨some (ascii "_single"), 7⟩ := by decide +kernel
  cases ran : run 3 [of (.total (ascii "1")) 0, of (.begins (ascii "_single")) 1] with
  | error failure => rw [ran] at kept; cases kept
  | ok jobs =>
    rw [ran] at kept
    change pkgAt jobs.heap 1 = _ at kept
    obtain ⟨entries, represents, pkgs, -⟩ := claimed 3 _ _ rfl proper (by decide) jobs ran
    have names : listed stripped
        ([of (.total (ascii "1")) 0, of (.begins (ascii "_single")) 1].map Arrival.event) = [[]] := by
      decide +kernel
    rw [names] at pkgs
    have there := represents.only 1 (by rw [kept]; rfl)
    obtain ⟨entry, member, same⟩ := List.mem_map.mp there
    have empty : entry.2 = pkgOf [] := by
      have inside := List.mem_map_of_mem (f := Prod.snd) member
      rw [pkgs] at inside
      exact List.mem_singleton.mp inside
    have found := represents.contents entry member
    rw [same, kept, empty] at found
    cases found

end CBuild.Soundness.RunningJobs
