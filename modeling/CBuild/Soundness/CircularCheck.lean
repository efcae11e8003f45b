import CBuild.Graph.Acyclic
import CBuild.Graph.Rounds
import CBuild.Model.GenBuildChain.CheckCircularDep
import CBuild.Model.GenBuildChain.MakeDeps
import Mathlib.Data.List.Perm.Subperm
import Mathlib.Data.List.Nodup

/-! # What the check for circular dependences finds

The counter of a package is the number of the names in its lists, but a package that is moved is counted off
once for each list. So the check succeeds exactly for packages that name other packages and none twice in a list,
without a cycle of dependences. A cycle that a package of FinallyList closes, since it waits for all others, is
not seen: the wait is over once nothing else is left.
-/

namespace CBuild.Soundness.CircularCheck

open CBuild.Text CBuild.Graph CBuild.Model.GenBuildChain

def depNames (item : Item) : List Text := item.asdeps ++ item.awdeps ++ item.ideps.map idepName

section

variable (finallyList : List Text) (actualList : List Item)

def names : List Text := actualList.map (·.target)

/-- A package and a package that it depends on. -/
def Depends (package dep : Text) : Prop :=
  (∃ item ∈ actualList, item.target = package ∧ dep ∈ depNames item) ∧ dep ∈ names actualList

/-- The packages that `finaldeps` names. -/
def Plain (package : Text) : Prop :=
  package ∈ names actualList ∧ package ∉ finallyList ∧ isNative package = false

/-- A package and what is built before it. -/
def Before (package dep : Text) : Prop :=
  Depends actualList package dep ∨
    package ∈ names actualList ∧ package ∈ finallyList ∧ Plain finallyList actualList dep

def Cyclic (relation : Text → Text → Prop) : Prop := ∃ package, Relation.TransGen relation package package

/-- Each list names packages, none twice. -/
def Balanced : Prop :=
  ∀ item ∈ actualList, (item.asdeps.Nodup ∧ item.awdeps.Nodup ∧ (item.ideps.map idepName).Nodup) ∧
    ∀ name ∈ depNames item, name ∈ names actualList

/-- A package that `finaldeps` names depends on one of FinallyList. -/
def OnFinally : Prop :=
  ∃ package last, Plain finallyList actualList package ∧ last ∈ finallyList ∧
    Relation.TransGen (Depends actualList) package last

def cleared (item : Item) : Item := { item with acount := 0 }

/-- The check ends, tells whether there is a cycle, and else orders the packages. -/
def Exact : Prop :=
  ∃ result order, checkCircularDep finallyList actualList = some (result, order) ∧
    (result = 0 ↔ ¬ Cyclic (Before finallyList actualList)) ∧
    (result = 0 → order.Perm (actualList.map cleared) ∧
      ∀ first item rest, order = first ++ item :: rest →
        ∀ dep, Before finallyList actualList item.target dep → dep ∈ names first)

/-- The counters that `check_item` leaves. -/
structure Counted : Prop where
  distinct : (names actualList).Nodup
  count : ∀ item ∈ actualList, item.acount =
    (if item.target ∈ finallyList then 1 else 0) + item.asdeps.length + item.awdeps.length + item.ideps.length

end

/-- How often the released packages were counted off. -/
def met (done : List Item) (item : Item) : ℕ :=
  done.countP (·.target ∈ item.asdeps) + done.countP (·.target ∈ item.awdeps) +
    done.countP (·.target ∈ item.ideps.map idepName)

/-- A package that waits, after the rounds so far. -/
def waiting (finallyList : List Text) (patient : Bool) (done : List Item) (item : Item) : Item :=
  { item with
    acount := item.acount - met done item - if patient = false ∧ item.target ∈ finallyList then 1 else 0 }

def ready (finallyList : List Text) (patient : Bool) (done : List Item) (item : Item) : Bool :=
  (waiting finallyList patient done item).acount = 0

theorem waiting_nil (finallyList : List Text) (item : Item) : waiting finallyList true [] item = item := by
  simp [waiting, met]

theorem countOff_waiting {finallyList : List Text} {patient : Bool} {done : List Item} {itema item : Item} :
    itema.countOff (waiting finallyList patient done item) =
      waiting finallyList patient (done ++ [itema]) item := by
  simp only [Item.countOff, Item.meet, waiting, met, List.countP_append, List.countP_singleton]
  grind

theorem foldl_countOff {finallyList : List Text} {patient : Bool} {pending now done : List Item} :
    now.foldl (fun listb itema => listb.map itema.countOff) (pending.map (waiting finallyList patient done)) =
      pending.map (waiting finallyList patient (done ++ now)) := by
  induction now generalizing done with
  | nil => simp
  | cons itema now ih =>
    have here : (pending.map (waiting finallyList patient done)).map itema.countOff =
        pending.map (waiting finallyList patient (done ++ [itema])) := by
      simp only [List.map_map, Function.comp_def, countOff_waiting]
    rw [List.foldl_cons, here, ih, List.append_assoc, List.singleton_append]

theorem hurry_waiting {finallyList : List Text} {done : List Item} {item : Item} :
    (waiting finallyList true done item).meet finallyList item.target = waiting finallyList false done item := by
  simp only [Item.meet, waiting]
  grind

/-- The loop releases the packages that are ready. -/
theorem checkCircularLoop_eq {finallyList : List Text} {fuel : ℕ} {patient : Bool} {pending done : List Item} :
    checkCircularLoop finallyList fuel patient (pending.map (waiting finallyList patient done))
        (done.map cleared) =
      (release (ready finallyList) fuel patient pending done).map fun (verdict, order) =>
        (if verdict then 0 else -1, order.map cleared) := by
  induction fuel generalizing patient pending done with
  | zero => rfl
  | succ fuel ih =>
    have lista : (pending.map (waiting finallyList patient done)).filter (·.acount = 0) =
        (pending.filter (ready finallyList patient done)).map (waiting finallyList patient done) :=
      List.filter_map ..
    have listb : (pending.map (waiting finallyList patient done)).filter (·.acount ≠ 0) =
        (pending.filter (!ready finallyList patient done ·)).map (waiting finallyList patient done) := by
      rw [List.filter_map]
      congr 2
      funext item
      simp [ready]
    have moved : (pending.filter (ready finallyList patient done)).map (waiting finallyList patient done) =
        (pending.filter (ready finallyList patient done)).map cleared := by
      refine List.map_congr_left fun item member => ?_
      have zero : (waiting finallyList patient done item).acount = 0 := by
        simpa [ready] using (List.mem_filter.mp member).2
      rw [cleared, ← zero]
      rfl
    unfold checkCircularLoop release
    simp only [lista, listb, List.isEmpty_map]
    by_cases empty : pending.isEmpty = true
    · simp [empty]
    by_cases stuck : (pending.filter (ready finallyList patient done)).isEmpty = true
    · have left : pending.filter (!ready finallyList patient done ·) = pending := by
        rw [List.filter_eq_self]
        intro item member
        simpa using List.filter_eq_nil_iff.mp (List.isEmpty_iff.mp stuck) item member
      rw [if_neg empty, if_neg empty, if_pos stuck, if_neg (not_not.mpr stuck), left]
      cases patient with
      | false => simp
      | true =>
        rw [if_pos rfl, if_pos rfl, ← ih, List.map_map]
        simp only [Function.comp_def]
        congr 2
        funext item
        exact @hurry_waiting finallyList done item
    · rw [if_neg empty, if_neg empty, if_neg stuck, if_pos stuck, ← ih, List.map_append, ← moved, List.foldl_map]
      congr 1
      exact foldl_countOff

theorem checkCircularDep_eq (finallyList : List Text) (actualList : List Item) :
    checkCircularDep finallyList actualList =
      (release (ready finallyList) (actualList.length + 2) true actualList []).map fun (verdict, order) =>
        (if verdict then 0 else -1, order.map cleared) := by
  have same : actualList.map (waiting finallyList true []) = actualList := by
    rw [List.map_congr_left fun item _ => waiting_nil finallyList item, List.map_id']
  have loop := @checkCircularLoop_eq finallyList (actualList.length + 2) true actualList []
  rw [same] at loop
  exact loop

/-- A list names packages that are released, none twice. -/
def Met (deps : List Text) (done : List Item) : Prop := deps.Nodup ∧ ∀ name ∈ deps, name ∈ names done

/-- A package all of whose counts are counted off. -/
def Complete (done : List Item) (item : Item) : Prop :=
  Met item.asdeps done ∧ Met item.awdeps done ∧ Met (item.ideps.map idepName) done

theorem Met.grows {deps : List Text} {first second : List Item} (more : first ⊆ second) (complete : Met deps first) :
    Met deps second :=
  ⟨complete.1, fun name member => List.map_subset _ more (complete.2 name member)⟩

theorem Complete.grows {first second : List Item} {item : Item} (more : first ⊆ second)
    (complete : Complete first item) : Complete second item :=
  ⟨complete.1.grows more, complete.2.1.grows more, complete.2.2.grows more⟩

/-- The counts of a list, once each for different packages. -/
theorem countP_eq {deps : List Text} {done : List Item} (distinct : (names done).Nodup) :
    done.countP (·.target ∈ deps) ≤ deps.length ∧
      (done.countP (·.target ∈ deps) = deps.length ↔ Met deps done) := by
  have counted : done.countP (·.target ∈ deps) = ((names done).filter (· ∈ deps)).length := by
    rw [names, List.filter_map, List.length_map, List.countP_eq_length_filter]
    rfl
  have below : ((names done).filter (· ∈ deps)).Subperm deps :=
    (distinct.filter _).subperm fun name member => by simpa using (List.mem_filter.mp member).2
  rw [counted]
  refine ⟨below.length_le, fun same => ?_, fun ⟨once, inside⟩ => ?_⟩
  · have perm := below.perm_of_length_le same.ge
    exact ⟨perm.nodup_iff.mp (distinct.filter _), fun name member =>
      (List.mem_filter.mp (perm.mem_iff.mpr member)).1⟩
  · have above : deps.Subperm ((names done).filter (· ∈ deps)) :=
      once.subperm fun name member => List.mem_filter.mpr ⟨inside name member, by simpa using member⟩
    exact le_antisymm below.length_le above.length_le

variable {finallyList : List Text} {actualList : List Item}

theorem ready_iff (counted : Counted finallyList actualList) (patient : Bool) (done : List Item) (item : Item)
    (part : (done ++ [item]).Subperm actualList) :
    ready finallyList patient done item = true ↔
      Complete done item ∧ (patient = true → item.target ∉ finallyList) := by
  have distinct : (names done).Nodup := by
    obtain ⟨list, perm, sub⟩ := part
    have apart : (names (done ++ [item])).Nodup :=
      (perm.map _).nodup_iff.mp (counted.distinct.sublist (sub.map _))
    rw [names, List.map_append] at apart
    exact (List.nodup_append.mp apart).1
  have member : item ∈ actualList := part.subset (List.mem_append_right _ (List.mem_singleton_self item))
  obtain ⟨strong, strongMet⟩ := @countP_eq item.asdeps done distinct
  obtain ⟨weak, weakMet⟩ := @countP_eq item.awdeps done distinct
  obtain ⟨cond, condMet⟩ := @countP_eq (item.ideps.map idepName) done distinct
  rw [List.length_map] at cond condMet
  rw [Complete, ← strongMet, ← weakMet, ← condMet, ready, decide_eq_true_eq, waiting, counted.count item member, met]
  dsimp only
  generalize done.countP (·.target ∈ item.asdeps) = strongCount at *
  generalize done.countP (·.target ∈ item.awdeps) = weakCount at *
  generalize done.countP (·.target ∈ item.ideps.map idepName) = condCount at *
  by_cases late : item.target ∈ finallyList <;> cases patient <;> simp [late] <;> omega

/-- The verdict of the loop and the order of the packages that it releases. -/
theorem outcome (counted : Counted finallyList actualList) :
    ∃ verdict order, checkCircularDep finallyList actualList = some (if verdict then 0 else -1, order.map cleared) ∧
      Released Complete (·.target ∈ finallyList) actualList order ∧ (verdict = true → order.Perm actualList) ∧
      (verdict = false → (∃ item ∈ actualList, item ∉ order) ∧
        ∀ item ∈ actualList, item ∉ order → ¬ Complete order item) := by
  obtain ⟨⟨verdict, order⟩, result⟩ := @release_ends _ (ready finallyList) (actualList.length + 2) true actualList []
    (by simp)
  have start : Rounds Complete (·.target ∈ finallyList) actualList true actualList [] :=
    ⟨List.Perm.refl _, by simp, by simp, nofun⟩
  refine ⟨verdict, order, by rw [checkCircularDep_eq, result]; rfl, ?_⟩
  exact release_released counted.distinct.of_map (fun _ _ _ more => Complete.grows more) (ready_iff counted) start
    result

theorem not_onFinally_path (free : ¬ OnFinally finallyList actualList) {a b : Text}
    (path : Relation.TransGen (Before finallyList actualList) a b) :
    Relation.TransGen (Depends actualList) a b ∨
      ∃ last plain, Relation.ReflTransGen (Depends actualList) a last ∧ last ∈ finallyList ∧
        Plain finallyList actualList plain ∧ Relation.ReflTransGen (Depends actualList) plain b := by
  induction path with
  | single edge =>
    rcases edge with dep | ⟨-, last, plain⟩
    · exact .inl (.single dep)
    · exact .inr ⟨_, _, .refl, last, plain, .refl⟩
  | @tail c b _ edge ih =>
    rcases edge with dep | ⟨-, last, plain⟩
    · rcases ih with path | ⟨last, plain, first, late, named, second⟩
      · exact .inl (path.tail dep)
      · exact .inr ⟨last, plain, first, late, named, second.tail dep⟩
    · rcases ih with path | ⟨_, plain', _, _, named, second⟩
      · exact .inr ⟨c, b, path.to_reflTransGen, last, plain, .refl⟩
      · rcases Relation.reflTransGen_iff_eq_or_transGen.mp second with rfl | path
        · exact absurd last named.2.1
        · exact absurd ⟨plain', c, named, last, path⟩ free

/-- A cycle goes through dependences alone, or a package that `finaldeps` names depends on a late one. -/
theorem cyclic_before_iff : Cyclic (Before finallyList actualList) ↔
    Cyclic (Depends actualList) ∨ OnFinally finallyList actualList := by
  constructor
  · rintro ⟨a, cycle⟩
    by_contra neither
    obtain ⟨acyclic, free⟩ := not_or.mp neither
    rcases not_onFinally_path free cycle with path | ⟨last, plain, first, late, named, second⟩
    · exact acyclic ⟨a, path⟩
    · rcases Relation.reflTransGen_iff_eq_or_transGen.mp (second.trans first) with rfl | path
      · exact named.2.1 late
      · exact free ⟨plain, last, named, late, path⟩
  · rintro (⟨a, cycle⟩ | ⟨package, last, plain, late, path⟩)
    · exact ⟨a, Relation.TransGen.mono (fun _ _ dep => .inl dep) _ _ cycle⟩
    · have member : last ∈ names actualList := by
        obtain ⟨c, -, edge⟩ := Relation.TransGen.tail'_iff.mp path
        exact edge.2
      exact ⟨package, 
        (Relation.TransGen.mono (fun _ _ dep => .inl dep) _ _ path).tail (.inr ⟨member, late, plain⟩)⟩

theorem depends_of_mem {item : Item} (member : item ∈ actualList) {dep : Text} (listed : dep ∈ depNames item)
    (named : dep ∈ names actualList) : Depends actualList item.target dep :=
  ⟨⟨item, member, rfl, listed⟩, named⟩

/-- Of packages with different names, one is released once the packages that it names are. -/
theorem complete_of {done : List Item} {item : Item} (balanced : Balanced actualList) (member : item ∈ actualList)
    (released : ∀ dep, Depends actualList item.target dep → dep ∈ names done) : Complete done item := by
  obtain ⟨⟨strong, weak, cond⟩, known⟩ := balanced item member
  have reach : ∀ name ∈ depNames item, name ∈ names done := fun name listed =>
    released name (depends_of_mem member listed (known name listed))
  simp only [depNames, List.mem_append] at reach
  exact ⟨⟨strong, fun name listed => reach name (.inl (.inl listed))⟩,
    ⟨weak, fun name listed => reach name (.inl (.inr listed))⟩, ⟨cond, fun name listed => reach name (.inr listed)⟩⟩

theorem Complete.names {done : List Item} {item : Item} (complete : Complete done item) :
    ∀ name ∈ depNames item, name ∈ names done := by
  obtain ⟨strong, weak, cond⟩ := complete
  intro name listed
  rcases List.mem_append.mp listed with inside | inside
  · rcases List.mem_append.mp inside with inside | inside
    · exact strong.2 name inside
    · exact weak.2 name inside
  · exact cond.2 name inside

section

variable {order : List Item}

/-- A package that is released comes after those that it depends on. -/
theorem idxOf_lt (counted : Counted finallyList actualList) (perm : order.Perm actualList)
    (sorted : ∀ first item rest, order = first ++ item :: rest → Complete first item) {package dep : Text}
    (edge : Depends actualList package dep) : (names order).idxOf dep < (names order).idxOf package := by
  obtain ⟨⟨item, member, rfl, listed⟩, -⟩ := edge
  obtain ⟨first, rest, same⟩ := List.append_of_mem (perm.mem_iff.mpr member)
  have earlier : dep ∈ names first := (sorted first item rest same).names dep listed
  have whole : names order = names first ++ item.target :: names rest := by rw [same, names, List.map_append]; rfl
  have fresh : item.target ∉ names first := by
    have distinct : (names order).Nodup := (perm.map _).nodup_iff.mpr counted.distinct
    rw [whole] at distinct
    exact fun again => (List.nodup_append.mp distinct).2.2 _ again _ (List.mem_cons_self ..) rfl
  rw [whole, List.idxOf_append_of_mem earlier, List.idxOf_append_of_notMem fresh]
  have inside := List.idxOf_lt_length_of_mem earlier
  omega

/-- All packages are released exactly when each list names packages, none twice, and no package depends
on itself. -/
theorem verdict_iff (counted : Counted finallyList actualList) {verdict : Bool}
    (released : Released Complete (·.target ∈ finallyList) actualList order)
    (all : verdict = true → order.Perm actualList)
    (stuck : verdict = false → (∃ item ∈ actualList, item ∉ order) ∧
      ∀ item ∈ actualList, item ∉ order → ¬ Complete order item) :
    verdict = true ↔ Balanced actualList ∧ ¬ Cyclic (Depends actualList) := by
  constructor
  · intro success
    have perm := all success
    refine ⟨fun item member => ?_, fun ⟨package, cycle⟩ => ?_⟩
    · obtain ⟨first, rest, same⟩ := List.append_of_mem (perm.mem_iff.mpr member)
      have complete := released.sorted first item rest same
      refine ⟨⟨complete.1.1, complete.2.1.1, complete.2.2.1⟩, fun name listed => ?_⟩
      have inside : first ⊆ actualList := fun other here =>
        perm.mem_iff.mp (by rw [same]; exact List.mem_append_left _ here)
      exact List.map_subset _ inside (complete.names name listed)
    · have lower : ∀ a b, Relation.TransGen (Depends actualList) a b →
          (names order).idxOf b < (names order).idxOf a := by
        intro a b path
        induction path with
        | single edge => exact idxOf_lt counted perm released.sorted edge
        | tail _ edge ih => exact (idxOf_lt counted perm released.sorted edge).trans ih
      exact lt_irrefl _ (lower package package cycle)
  · rintro ⟨balanced, acyclic⟩
    by_contra failed
    obtain ⟨⟨item, member, fresh⟩, incomplete⟩ := stuck (by simpa using failed)
    have reached : ∀ name ∈ names actualList, name ∈ names order := by
      refine acyclic_induction (fun a _ cycle => acyclic ⟨a, cycle⟩) fun name named ih => ?_
      obtain ⟨other, inside, rfl⟩ := List.mem_map.mp named
      by_contra missing
      have absent : other ∉ order := fun here => missing (List.mem_map_of_mem here)
      exact incomplete other inside absent (complete_of balanced inside fun dep edge => ih dep edge.2 edge)
    obtain ⟨other, here, same⟩ := List.mem_map.mp (reached item.target (List.mem_map_of_mem member))
    have equal : other = item :=
      List.inj_on_of_nodup_map counted.distinct (released.inside other here) member same
    exact fresh (equal ▸ here)

/-- The packages that `finaldeps` names, and what they depend on, are released before the late ones. -/
theorem plain_early (balanced : Balanced actualList) (acyclic : ¬ Cyclic (Depends actualList))
    (free : ¬ OnFinally finallyList actualList) {early : List Item}
    (saturated : ∀ item ∈ actualList, item ∉ early → item.target ∉ finallyList → ¬ Complete early item) :
    ∀ package, Plain finallyList actualList package → package ∈ names early := by
  have reached : ∀ name ∈ names actualList, ∀ package, Plain finallyList actualList package →
      Relation.ReflTransGen (Depends actualList) package name → name ∈ names early := by
    refine acyclic_induction (fun a _ cycle => acyclic ⟨a, cycle⟩) fun name named ih package plain path => ?_
    obtain ⟨item, member, rfl⟩ := List.mem_map.mp named
    by_contra missing
    have soon : item.target ∉ finallyList := by
      intro late
      rcases Relation.reflTransGen_iff_eq_or_transGen.mp path with same | path
      · exact plain.2.1 (same ▸ late)
      · exact free ⟨package, item.target, plain, late, path⟩
    have absent : item ∉ early := fun here => missing (List.mem_map_of_mem here)
    exact saturated item member absent soon
      (complete_of balanced member fun dep edge => ih dep edge.2 edge package plain (path.tail edge))
  exact fun package plain => reached package plain.1 package plain .refl

/-- A late package comes after the packages that `finaldeps` names. -/
theorem plain_before (released : Released Complete (·.target ∈ finallyList) actualList order)
    (balanced : Balanced actualList) (acyclic : ¬ Cyclic (Depends actualList))
    (free : ¬ OnFinally finallyList actualList) {first rest : List Item} {item : Item}
    (same : order = first ++ item :: rest) (late : item.target ∈ finallyList) {package : Text}
    (plain : Plain finallyList actualList package) : package ∈ names first := by
  obtain ⟨early, before, soon, saturated⟩ := released.early
  have inside : early <+: first := by
    rw [same] at before
    rcases List.prefix_or_prefix_of_prefix before (List.prefix_append first (item :: rest)) with shorter | ⟨more, longer⟩
    · exact shorter
    · cases more with
      | nil => exact ⟨[], by simpa using longer.symm⟩
      | cons other more =>
        obtain ⟨tail, whole⟩ := before
        rw [← longer, List.append_assoc, List.append_cancel_left_eq] at whole
        cases whole
        exact absurd late (soon item (by rw [← longer]; exact List.mem_append_right _ (List.mem_cons_self ..)))
  have here := plain_early balanced acyclic free saturated package plain
  exact List.map_subset _ inside.subset here

end

/-- When the check is exact, for the counters that `check_item` leaves. -/
theorem exact_iff_of_counted (counted : Counted finallyList actualList) :
    Exact finallyList actualList ↔
      Cyclic (Depends actualList) ∨ (Balanced actualList ↔ ¬ OnFinally finallyList actualList) := by
  obtain ⟨verdict, order, result, released, all, stuck⟩ := outcome counted
  have success := verdict_iff counted released all stuck
  have zero : (if verdict then (0 : ℤ) else -1) = 0 ↔ verdict = true := by cases verdict <;> decide
  have ordered (acyclic : ¬ Cyclic (Before finallyList actualList)) (won : verdict = true) :
      (order.map cleared).Perm (actualList.map cleared) ∧
        ∀ first item rest, order.map cleared = first ++ item :: rest →
          ∀ dep, Before finallyList actualList item.target dep → dep ∈ names first := by
    refine ⟨(all won).map _, fun first item rest same dep edge => ?_⟩
    obtain ⟨first', tail', split, rfl, tailSame⟩ := List.map_eq_append_iff.mp same
    obtain ⟨item', rest', rfl, rfl, rfl⟩ := List.map_eq_cons_iff.mp tailSame
    have namesEq : names (first'.map cleared) = names first' := by simp [names, cleared]
    rw [namesEq]
    obtain ⟨noCycle, free⟩ := not_or.mp (mt cyclic_before_iff.mpr acyclic)
    rcases edge with ⟨⟨other, member, same', listed⟩, -⟩ | ⟨-, late, plain⟩
    · have inside : item' ∈ actualList :=
        released.inside item' (by rw [split]; exact List.mem_append_right _ (List.mem_cons_self ..))
      have equal : other = item' := List.inj_on_of_nodup_map counted.distinct member inside same'
      subst equal
      exact (released.sorted first' other rest' split).names dep listed
    · exact plain_before released (success.mp won).1 noCycle free split late plain
  have verdicts : (verdict = true ↔ ¬ Cyclic (Before finallyList actualList)) ↔
      Cyclic (Depends actualList) ∨ (Balanced actualList ↔ ¬ OnFinally finallyList actualList) := by
    rw [success, cyclic_before_iff]
    by_cases cycle : Cyclic (Depends actualList) <;> simp [cycle]
  rw [← verdicts]
  constructor
  · rintro ⟨result', order', same, exact', -⟩
    rw [result] at same
    cases same
    rwa [zero] at exact'
  · intro condition
    refine ⟨_, _, result, by rwa [zero], fun won => ?_⟩
    exact ordered (condition.mp (zero.mp won)) (zero.mp won)

/-- Without recipes to move, a choice gains no members. -/
theorem checkChoice_none (item : Item) (st : CheckState) :
    (checkChoice [] item st).2.1 = [] := by
  have none : ∀ (deps : List Text) (poky : Poky), (chooseTargets st.targetList [] deps poky).2.1 = [] := by
    intro deps
    induction deps with
    | nil => intro poky; rfl
    | cons dep deps ih =>
      intro poky
      by_cases inside : dep ∈ st.targetList
      · simp [chooseTargets, inside, ih]
      · simp [chooseTargets, inside, ih]
  unfold checkChoice
  split
  · exact none _ _
  · rfl

theorem filterItem_count {strict : Bool} {targetList : List Text} {item kept : Item}
    (success : filterItem strict targetList item = some kept) : kept.acount =
      item.acount + kept.asdeps.length + kept.awdeps.length + kept.ideps.length := by
  simp only [filterItem, bind, Option.bind_eq_some_iff] at success
  obtain ⟨wrule, _, select, _, imply, _, result⟩ := success
  cases result
  rfl

theorem checkChoice_count {pokyNames : List Text} {item : Item} {st : CheckState} :
    (checkChoice pokyNames item st).1.target = item.target ∧ (checkChoice pokyNames item st).1.vtype = item.vtype ∧
      (checkChoice pokyNames item st).1.acount = item.acount ∧
      (checkChoice pokyNames item st).1.asdeps = item.asdeps ∧
      (checkChoice pokyNames item st).1.awdeps = item.awdeps ∧
      (checkChoice pokyNames item st).1.ideps = item.ideps := by
  unfold checkChoice
  split <;> exact ⟨rfl, rfl, rfl, rfl, rfl, rfl⟩

/-- An item that `check_item` leaves, and the item that it was. -/
structure Counts (source item : Item) : Prop where
  target : item.target = source.target
  vtype : item.vtype = source.vtype
  count : item.acount = source.acount + item.asdeps.length + item.awdeps.length + item.ideps.length

/-- `check_item` adds the lengths of the lists that it leaves to the counters. -/
theorem checkItem_counts {strict : Bool} {forest left : Forest} {st final : CheckState}
    (success : checkItem strict [] forest st = some (left, final)) :
    ∀ item ∈ left.items, ∃ source ∈ forest.items, Counts source item := by
  induction forest generalizing st left final with
  | nil =>
    cases success
    exact nofun
  | cons item member rest memberCounts restCounts =>
    simp only [checkItem, bind, Option.bind_eq_some_iff] at success
    obtain ⟨filtered, found, success⟩ := success
    obtain ⟨sameType, sameTarget, -, -, -⟩ := filterItem_frame found
    have count := filterItem_count found
    have none := checkChoice_none filtered st
    obtain ⟨target, vtype, acount, strong, weak, cond⟩ := @checkChoice_count [] filtered st
    generalize checkChoice [] filtered st = result at *
    obtain ⟨kept, moved, st'⟩ := result
    dsimp only at none target vtype acount strong weak cond success
    subst none
    have own : Counts item kept :=
      ⟨target.trans sameTarget, vtype.trans sameType, by rw [acount, strong, weak, cond, count]⟩
    have first : ∃ source ∈ (Forest.cons item member rest).items, Counts source kept :=
      ⟨item, List.mem_cons_self .., own⟩
    have later {other : Item} (known : ∃ source ∈ rest.items, Counts source other) :
        ∃ source ∈ (Forest.cons item member rest).items, Counts source other := by
      obtain ⟨source, inside, counts⟩ := known
      exact ⟨source, List.mem_cons_of_mem _ (List.mem_append_right _ inside), counts⟩
    split_ifs at success with alone virtual
    · exact fun other member => later (restCounts success other member)
    · simp only [Option.bind_eq_some_iff] at success
      obtain ⟨⟨restLeft, restFinal⟩, visited, result⟩ := success
      cases result
      intro other inside
      rcases List.mem_cons.mp inside with rfl | inside
      · exact first
      · exact later (restCounts visited other inside)
    · simp only [Option.bind_eq_some_iff] at success
      obtain ⟨⟨memberLeft, st₁⟩, visitedMember, movedLeft, filteredMoved, ⟨restLeft, restFinal⟩, visited, result⟩ :=
        success
      cases result
      have none : movedLeft = [] := by simpa using filteredMoved.symm
      subst none
      intro other inside
      simp only [Forest.items_cons, Forest.items_append, Forest.items_leaves, List.append_nil] at inside
      rcases List.mem_cons.mp inside with rfl | inside
      · exact first
      · rcases List.mem_append.mp inside with inside | inside
        · obtain ⟨source, here, counts⟩ := memberCounts visitedMember other inside
          exact ⟨source, List.mem_cons_of_mem _ (List.mem_append_left _ here), counts⟩
        · exact later (restCounts visited other inside)

/-- The check is exact when there is a cycle of dependences alone, and else when either each list names
packages, none twice, and no package that `finaldeps` names depends on one of FinallyList, or neither holds. -/
theorem exact_iff (finallyList : List Text) (forest left : Forest) (st final : CheckState) (actualList : List Item)
    (initial : ∀ item ∈ forest.items, item.vtype = .package →
      item.acount = if item.target ∈ finallyList then 1 else 0)
    (walked : checkItem true [] forest st = some (left, final))
    (packages : actualList.Perm (left.items.filter (·.vtype = .package)))
    (distinct : (names actualList).Nodup) :
    Exact finallyList actualList ↔
      Cyclic (Depends actualList) ∨ (Balanced actualList ↔ ¬ OnFinally finallyList actualList) := by
  refine exact_iff_of_counted ⟨distinct, fun item member => ?_⟩
  obtain ⟨inside, package⟩ := List.mem_filter.mp (packages.mem_iff.mp member)
  obtain ⟨source, known, counts⟩ := checkItem_counts walked item inside
  rw [counts.count, initial source known (by rw [← counts.vtype]; simpa using package), ← counts.target]

def app (deps : List Text) : Item := { target := "app".toList, asdeps := deps }

def lib : Item := { target := "lib".toList }

def image : Item := { target := "image".toList, targets := ["finally".toList], acount := 1 }

def imageState : CheckState where
  targetList := ["app".toList, "lib".toList, "image".toList]
  virtualList := []
  poky := .none

def checked (deps : List Text) : List Item := [{ app deps with acount := deps.length }, lib, image]

theorem depends_checked {deps : List Text} {package dep : Text} (edge : Depends (checked deps) package dep) :
    package = "app".toList ∧ dep ∈ deps := by
  obtain ⟨⟨item, member, rfl, listed⟩, -⟩ := edge
  simp only [checked, List.mem_cons, List.not_mem_nil, or_false] at member
  rcases member with rfl | rfl | rfl
  · exact ⟨rfl, by simpa [depNames, app] using listed⟩
  · simp [depNames, lib] at listed
  · simp [depNames, image] at listed

/-- The application and its library come before the image. -/
theorem image_last :
    checkItem true [] (.leaves [app ["lib".toList], lib, image]) imageState =
        some (.leaves (checked ["lib".toList]), imageState) ∧
      Exact ["image".toList] (checked ["lib".toList]) := by
  have walked : checkItem true [] (.leaves [app ["lib".toList], lib, image]) imageState =
      some (.leaves (checked ["lib".toList]), imageState) := by decide +kernel
  have balanced : Balanced (checked ["lib".toList]) := by unfold Balanced; decide +kernel
  refine ⟨walked, (exact_iff ["image".toList] _ _ imageState imageState (checked ["lib".toList])
    (by decide +kernel) walked (by decide +kernel) (by decide +kernel)).mpr (.inr (iff_of_true balanced ?_))⟩
  rintro ⟨package, last, plain, late, path⟩
  obtain ⟨before, -, edge⟩ := Relation.TransGen.tail'_iff.mp path
  obtain ⟨-, listed⟩ := depends_checked edge
  rw [List.mem_singleton.mp listed] at late
  exact absurd late (by decide +kernel)

/-- An application that needs the image, which waits for all packages, is let through, and one that names its
library twice is taken for a cycle. -/
theorem image_missed :
    (checkItem true [] (.leaves [app ["image".toList], lib, image]) imageState =
        some (.leaves (checked ["image".toList]), imageState) ∧
      ¬ Exact ["image".toList] (checked ["image".toList])) ∧
    checkItem true [] (.leaves [app ["lib".toList, "lib".toList], lib, image]) imageState =
        some (.leaves (checked ["lib".toList, "lib".toList]), imageState) ∧
      ¬ Exact ["image".toList] (checked ["lib".toList, "lib".toList]) := by
  refine ⟨⟨by decide +kernel, ?_⟩, by decide +kernel, ?_⟩
  · rintro ⟨result, order, ran, exact', -⟩
    have passed : (checkCircularDep ["image".toList] (checked ["image".toList])).map Prod.fst = some 0 := by
      decide +kernel
    rw [ran, Option.map_some, Option.some.injEq] at passed
    have needed : Depends (checked ["image".toList]) "app".toList "image".toList := by
      unfold Depends; decide +kernel
    have waits : Plain ["image".toList] (checked ["image".toList]) "app".toList := by unfold Plain; decide +kernel
    exact exact'.mp passed ⟨_, (Relation.TransGen.single (.inl needed)).tail
      (.inr ⟨by decide +kernel, by decide +kernel, waits⟩)⟩
  · rintro ⟨result, order, ran, exact', -⟩
    have stopped : (checkCircularDep ["image".toList] (checked ["lib".toList, "lib".toList])).map Prod.fst =
        some (-1) := by decide +kernel
    rw [ran, Option.map_some, Option.some.injEq] at stopped
    have acyclic : ¬ Cyclic (Before ["image".toList] (checked ["lib".toList, "lib".toList])) := by
      rw [cyclic_before_iff]
      rintro (⟨package, cycle⟩ | ⟨package, last, plain, late, path⟩)
      · obtain ⟨after, first, -⟩ := Relation.TransGen.head'_iff.mp cycle
        obtain ⟨before, -, edge⟩ := Relation.TransGen.tail'_iff.mp cycle
        have listed := (depends_checked edge).2
        rw [(depends_checked first).1] at listed
        exact absurd listed (by decide +kernel)
      · obtain ⟨before, -, edge⟩ := Relation.TransGen.tail'_iff.mp path
        have listed := (depends_checked edge).2
        rw [List.mem_singleton.mp late] at listed
        exact absurd listed (by decide +kernel)
    rw [exact'.mpr acyclic] at stopped
    exact absurd stopped (by simp)

end CBuild.Soundness.CircularCheck
