/-
Writing the sudoers drop-in (`write_sudoers_file_to` in `sudoers_io.rs`), by any
number of processes at once.

All of them use the one temporary name. The guard that removes it is armed
before the exclusive create, so that a run whose create failed removes the file
of the run it lost to; a third one can then create the name anew, and the first
renames the unfinished file of the third (`partial_dropIn`). `dropIn_complete`
says what holds as long as no such removal hits a run that is still at work.
-/
import SecureSudoers.Lib.Interleaving
import SecureSudoers.FileSystem

namespace SecureSudoers

open Interleaving

variable {ι : Type}

/-- The two names, as the inodes they lead to, and what the inodes hold. -/
structure DropIn (ι : Type) where
  temp : Option Nat
  dest : Option Nat
  content : Nat → Bytes
  /-- The next inode to be made. -/
  next : Nat
  /-- Which run made an inode, if one did. -/
  madeBy : Nat → Option ι

/-- Where a run is. -/
inductive Writer where
  /-- Before `create_new`, with the guard armed. -/
  | start
  /-- The file is open on the inode, and this much is still to be written. -/
  | writing (ino : Nat) (rest : Bytes)
  /-- The file is written, synced and closed. -/
  | written
  /-- `visudo` has accepted the file of that name. -/
  | accepted
  /-- Returning with an error, before the guard is dropped. -/
  | leaving (created : Bool)
  | returned (ok : Bool)
  deriving DecidableEq, Repr

/-- A call of a run, and how it ends. -/
inductive WriterEvent where
  | create
  | createFails
  /-- One `write` of `write_all`, of at most `n` octets. -/
  | write (n : Nat)
  | close
  | check
  | rename
  /-- A call after the create fails, or `visudo` rejects. -/
  | fails
  | remove
  | removeFails
  deriving DecidableEq, Repr

/-- The temporary name leads to a new file of run `i`. -/
def DropIn.create (s : DropIn ι) (i : ι) : DropIn ι where
  temp := some s.next
  dest := s.dest
  content := Function.update s.content s.next []
  next := s.next + 1
  madeBy := Function.update s.madeBy s.next (some i)

def DropIn.append (s : DropIn ι) (ino : Nat) (bytes : Bytes) : DropIn ι :=
  { s with content := Function.update s.content ino (s.content ino ++ bytes) }

@[simp] theorem DropIn.create_content (s : DropIn ι) (i : ι) : (s.create i).content s.next = [] :=
  Function.update_self ..

@[simp] theorem DropIn.create_madeBy (s : DropIn ι) (i : ι) : (s.create i).madeBy s.next = some i :=
  Function.update_self ..

@[simp] theorem DropIn.append_content (s : DropIn ι) (ino : Nat) (bytes : Bytes) :
    (s.append ino bytes).content ino = s.content ino ++ bytes :=
  Function.update_self ..

/-- What the destination holds. -/
def DropIn.destBytes (s : DropIn ι) : Option Bytes := s.dest.map s.content

/-- A step of run `i`, which is to write `content i`. -/
def writerAct (accepts : Bytes → Bool) (content : ι → Bytes) : Act ι (DropIn ι) Writer WriterEvent :=
  fun i event s place =>
    match event, place with
    | .create, .start =>
      match s.temp with
      | some _ => none
      | none => some (s.create i, .writing s.next (content i))
    | .createFails, .start => some (s, .leaving false)
    | .write n, .writing ino rest => some (s.append ino (rest.take n), .writing ino (rest.drop n))
    | .close, .writing _ [] => some (s, .written)
    | .check, .written =>
      match s.temp with
      | some ino => if accepts (s.content ino) then some (s, .accepted) else none
      | none => none
    | .rename, .accepted =>
      match s.temp with
      | some ino => some ({ s with temp := none, dest := some ino }, .returned true)
      | none => none
    | .fails, .writing _ _ | .fails, .written | .fails, .accepted => some (s, .leaving true)
    | .remove, .leaving _ => some ({ s with temp := none }, .returned false)
    | .removeFails, .leaving _ => some (s, .returned false)
    | _, _ => none

/-- The run has created the file and not yet renamed or removed it. -/
def Writer.AtWork : Writer → Prop
  | .writing _ _ | .written | .accepted | .leaving true => True
  | .start | .leaving false | .returned _ => False

/-- The steps of run `i`, one by one. -/
inductive WriterStep (accepts : Bytes → Bool) (content : ι → Bytes) (i : ι) (s : DropIn ι) :
    WriterEvent → Writer → DropIn ι → Writer → Prop where
  | create : s.temp = none →
      WriterStep accepts content i s .create .start (s.create i) (.writing s.next (content i))
  | createFails : WriterStep accepts content i s .createFails .start s (.leaving false)
  | write {n ino : Nat} {rest : Bytes} : WriterStep accepts content i s (.write n) (.writing ino rest)
      (s.append ino (rest.take n)) (.writing ino (rest.drop n))
  | close {ino : Nat} : WriterStep accepts content i s .close (.writing ino []) s .written
  | check {ino : Nat} : s.temp = some ino → accepts (s.content ino) = true →
      WriterStep accepts content i s .check .written s .accepted
  | rename {ino : Nat} : s.temp = some ino →
      WriterStep accepts content i s .rename .accepted { s with temp := none, dest := some ino } (.returned true)
  | fails {place : Writer} : place.AtWork → WriterStep accepts content i s .fails place s (.leaving true)
  | remove {created : Bool} : WriterStep accepts content i s .remove (.leaving created) { s with temp := none }
      (.returned false)
  | removeFails {created : Bool} : WriterStep accepts content i s .removeFails (.leaving created) s (.returned false)

theorem writerStep_of_act {accepts : Bytes → Bool} {content : ι → Bytes} {i : ι} {s s' : DropIn ι}
    {event : WriterEvent} {place place' : Writer} (h : writerAct accepts content i event s place = some (s', place')) :
    WriterStep accepts content i s event place s' place' := by
  unfold writerAct at h
  split at h
  · split at h
    · cases h
    · rename_i htemp
      cases h
      exact .create htemp
  · cases h
    exact .createFails
  · cases h
    exact .write
  · cases h
    exact .close
  · split at h
    · rename_i htemp
      split at h
      · rename_i haccepts
        cases h
        exact .check htemp haccepts
      · cases h
    · cases h
  · split at h
    · rename_i htemp
      cases h
      exact .rename htemp
    · cases h
  · cases h
    exact .fails trivial
  · cases h
    exact .fails trivial
  · cases h
    exact .fails trivial
  · cases h
    exact .remove
  · cases h
    exact .removeFails
  · cases h

/-- A run whose create failed does not remove while another is at work, and a
run that created the file does not fail to remove it. -/
def Unhurried (c : Procs ι (DropIn ι) Writer) (i : ι) : WriterEvent → Prop
  | .remove => c.place i = .leaving false → ∀ j, ¬(c.place j).AtWork
  | .removeFails => c.place i ≠ .leaving true
  | _ => True

/-- No run has begun, and no inode is theirs. -/
structure Begins (c : Procs ι (DropIn ι) Writer) : Prop where
  place (i : ι) : c.place i = .start
  madeBy (ino : Nat) : c.shared.madeBy ino = none
  dest {ino : Nat} : c.shared.dest = some ino → ino < c.shared.next

/-- How far the file on the inode `ino` is, for the run that made it. -/
def Progress (accepts : Bytes → Bool) (content : Bytes) (s : DropIn ι) (ino : Nat) : Writer → Prop
  | .writing ino' rest => ino' = ino ∧ s.content ino ++ rest = content
  | .written => s.content ino = content
  | .accepted => s.content ino = content ∧ accepts content = true
  | _ => True

/-- The destination is as it was, or the accepted content of a run; and the
temporary name leads to the file of the one run at work. -/
structure DropInInv (accepts : Bytes → Bool) (content : ι → Bytes) (before : Option Bytes)
    (c : Procs ι (DropIn ι) Writer) : Prop where
  dest : c.shared.destBytes = before ∨
    ∃ i, c.shared.destBytes = some (content i) ∧ accepts (content i) = true
  destOld {ino : Nat} : c.shared.dest = some ino → ino < c.shared.next
  atWork {i : ι} : (c.place i).AtWork → ∃ ino, c.shared.temp = some ino ∧ c.shared.dest ≠ some ino ∧
    ino < c.shared.next ∧ Progress accepts (content i) c.shared ino (c.place i)
  alone {i j : ι} : (c.place i).AtWork → (c.place j).AtWork → i = j
  made {ino : Nat} {i : ι} : c.shared.temp = some ino → c.shared.madeBy ino = some i → (c.place i).AtWork

variable {accepts : Bytes → Bool} {content : ι → Bytes} {before : Option Bytes} {c d : Procs ι (DropIn ι) Writer}
  {i : ι}

theorem destBytes_update {s : DropIn ι} {ino : Nat} {bytes : Bytes} (h : s.dest ≠ some ino) :
    s.dest.map (Function.update s.content ino bytes) = s.destBytes := by
  unfold DropIn.destBytes
  cases hdest : s.dest with
  | none => rfl
  | some d =>
    have hne : d ≠ ino := fun he => h (he ▸ hdest)
    rw [Option.map_some, Option.map_some, Function.update_of_ne hne]

theorem DropInInv.of_begins (h : Begins c) : DropInInv accepts content c.shared.destBytes c where
  dest := .inl rfl
  destOld := h.dest
  atWork {i} hwork := by
    rw [h.place i] at hwork
    exact hwork.elim
  alone {i j} hwork := by
    rw [h.place i] at hwork
    exact hwork.elim
  made _ hmade := by
    rw [h.madeBy] at hmade
    cases hmade

variable [DecidableEq ι]

/-- A step that leaves the names and the files, and whether the run is at work. -/
theorem DropInInv.move_same (h : DropInInv accepts content before c) {place : Writer}
    (hwork : place.AtWork ↔ (c.place i).AtWork)
    (hprogress : ∀ ino, c.shared.temp = some ino → Progress accepts (content i) c.shared ino (c.place i) →
      Progress accepts (content i) c.shared ino place) :
    DropInInv accepts content before (c.move i c.shared place) := by
  have hplace : ∀ j, ((c.move i c.shared place).place j).AtWork ↔ (c.place j).AtWork := by
    intro j
    by_cases hj : j = i
    · rw [hj, Procs.move_place_same, hwork]
    · rw [Procs.move_place_other hj]
  refine ⟨h.dest, h.destOld, fun {j} hj => ?_, fun hj hk => ?_, fun htemp hmade => ?_⟩
  · obtain ⟨ino, htemp, hdest, hlt, hprog⟩ := h.atWork ((hplace j).mp hj)
    refine ⟨ino, htemp, hdest, hlt, ?_⟩
    by_cases hji : j = i
    · subst hji
      rw [Procs.move_place_same]
      exact hprogress ino htemp hprog
    · rwa [Procs.move_place_other hji]
  · exact h.alone ((hplace _).mp hj) ((hplace _).mp hk)
  · exact (hplace _).mpr (h.made htemp hmade)

/-- A step after which the temporary name is free and nobody is at work. -/
theorem DropInInv.move_vacant {s : DropIn ι} {place : Writer} (htemp : s.temp = none) (hplace : ¬place.AtWork)
    (hidle : ∀ j, j ≠ i → ¬(c.place j).AtWork)
    (hdest : s.destBytes = before ∨ ∃ i, s.destBytes = some (content i) ∧ accepts (content i) = true)
    (hold : ∀ ino, s.dest = some ino → ino < s.next) :
    DropInInv accepts content before (c.move i s place) := by
  have hno : ∀ j, ¬((c.move i s place).place j).AtWork := by
    intro j
    by_cases hj : j = i
    · rwa [hj, Procs.move_place_same]
    · rw [Procs.move_place_other hj]
      exact hidle j hj
  refine ⟨hdest, hold _, fun {j} hj => absurd hj (hno j), fun {j} _ hj _ => absurd hj (hno j), fun htemp' => ?_⟩
  rw [Procs.move_shared, htemp] at htemp'
  cases htemp'

/-- The name is free, so that the new file is the only one at work. -/
theorem DropInInv.create (h : DropInInv accepts content before c) (htemp : c.shared.temp = none) :
    DropInInv accepts content before (c.move i (c.shared.create i) (.writing c.shared.next (content i))) := by
  have hidle : ∀ j, ¬(c.place j).AtWork := fun j hj => by
    obtain ⟨ino, htemp', -⟩ := h.atWork hj
    rw [htemp] at htemp'
    cases htemp'
  have hdest : c.shared.dest ≠ some c.shared.next := fun hd => Nat.lt_irrefl _ (h.destOld hd)
  have hbytes : (c.shared.create i).destBytes = c.shared.destBytes := destBytes_update hdest
  have honly : ∀ {j}, ((c.move i (c.shared.create i) (.writing c.shared.next (content i))).place j).AtWork → j = i := by
    intro j hj
    by_contra hji
    rw [Procs.move_place_other hji] at hj
    exact hidle j hj
  refine ⟨hbytes ▸ h.dest, fun hlt => Nat.lt_succ_of_lt (h.destOld hlt), fun {j} hj => ?_, fun hj hk => ?_,
    fun {ino j} ht hmade => ?_⟩
  · obtain rfl := honly hj
    refine ⟨c.shared.next, rfl, hdest, Nat.lt_succ_self _, ?_⟩
    rw [Procs.move_place_same]
    exact ⟨rfl, congrArg (· ++ content j) (c.shared.create_content j)⟩
  · exact (honly hj).trans (honly hk).symm
  · cases ht
    cases (c.shared.create_madeBy i).symm.trans hmade
    rw [Procs.move_place_same]
    trivial

/-- Writing goes on in the file of the temporary name. -/
theorem DropInInv.write (h : DropInInv accepts content before c) {ino n : Nat} {rest : Bytes}
    (hplace : c.place i = .writing ino rest) :
    DropInInv accepts content before (c.move i (c.shared.append ino (rest.take n)) (.writing ino (rest.drop n))) := by
  have hwork : (c.place i).AtWork := by rw [hplace]; trivial
  obtain ⟨ino', htemp, hdest, hlt, hprog⟩ := h.atWork hwork
  rw [hplace] at hprog
  obtain ⟨rfl, hcontent⟩ := hprog
  have hbytes : (c.shared.append ino (rest.take n)).destBytes = c.shared.destBytes := destBytes_update hdest
  have honly : ∀ {j}, ((c.move i (c.shared.append ino (rest.take n)) (.writing ino (rest.drop n))).place j).AtWork →
      j = i := by
    intro j hj
    by_contra hji
    rw [Procs.move_place_other hji] at hj
    exact hji (h.alone hj hwork)
  refine ⟨hbytes ▸ h.dest, h.destOld, fun {j} hj => ?_, fun hj hk => ?_, fun {ino' j} ht hmade => ?_⟩
  · obtain rfl := honly hj
    refine ⟨ino, htemp, hdest, hlt, ?_⟩
    rw [Procs.move_place_same]
    refine ⟨rfl, ?_⟩
    rw [Procs.move_shared, DropIn.append_content, List.append_assoc, List.take_append_drop, hcontent]
  · exact (honly hj).trans (honly hk).symm
  · obtain rfl := h.alone (h.made ht hmade) hwork
    rw [Procs.move_place_same]
    trivial

theorem DropInInv.step (h : DropInInv accepts content before c) {event : WriterEvent} {s : DropIn ι} {place : Writer}
    (hok : Unhurried c i event) (hstep : WriterStep accepts content i c.shared event (c.place i) s place) :
    DropInInv accepts content before (c.move i s place) := by
  generalize hplace : c.place i = old at hstep
  cases hstep with
  | create htemp => exact h.create htemp
  | createFails =>
    exact h.move_same (by rw [hplace]; exact Iff.rfl) fun ino _ _ => trivial
  | write => exact h.write hplace
  | close =>
    refine h.move_same (by rw [hplace]; exact Iff.rfl) fun ino _ hprog => ?_
    rw [hplace] at hprog
    exact (List.append_nil _).symm.trans hprog.2
  | check htemp haccepts =>
    refine h.move_same (by rw [hplace]; exact Iff.rfl) fun ino' htemp' hprog => ?_
    rw [hplace] at hprog
    rw [htemp] at htemp'
    cases htemp'
    exact ⟨hprog, hprog ▸ haccepts⟩
  | rename htemp =>
    have hwork : (c.place i).AtWork := by rw [hplace]; trivial
    obtain ⟨ino, htemp', -, hlt, hprog⟩ := h.atWork hwork
    rw [htemp] at htemp'
    cases htemp'
    rw [hplace] at hprog
    refine .move_vacant rfl id (fun j hj hjwork => hj (h.alone hjwork hwork)) (.inr ⟨i, ?_, hprog.2⟩) fun ino' hdest => ?_
    · exact congrArg some hprog.1
    · cases hdest
      exact hlt
  | fails hwork =>
    refine h.move_same ?_ fun _ _ _ => trivial
    rw [hplace]
    exact iff_of_true trivial hwork
  | @remove created =>
    refine .move_vacant rfl id (fun j hj hjwork => ?_) h.dest fun _ => h.destOld
    cases created with
    | false => exact hok hplace j hjwork
    | true => exact hj (h.alone hjwork (by rw [hplace]; trivial))
  | @removeFails created =>
    have hcreated : created = false := by
      cases created with
      | false => rfl
      | true => exact absurd hplace hok
    subst hcreated
    exact h.move_same (by rw [hplace]; exact Iff.rfl) fun ino _ _ => trivial

/-- **In a run whose steps are unhurried, the destination holds what it held
before or the complete content of a run that `visudo` accepted; and a run whose
create failed removes no file that another made.** -/
theorem dropIn_complete (hbegins : Begins c)
    (h : Reaches (writerAct accepts content) Unhurried c d) :
    (d.shared.destBytes = c.shared.destBytes ∨
      ∃ i, d.shared.destBytes = some (content i) ∧ accepts (content i) = true) ∧
    ∀ i, d.place i = .leaving false → Unhurried d i .remove →
      ∀ ino j, d.shared.temp = some ino → d.shared.madeBy ino ≠ some j := by
  have hinv : DropInInv accepts content c.shared.destBytes d :=
    h.invariant _ (.of_begins hbegins) fun _ _ _ _ _ hinv hok hact => hinv.step hok (writerStep_of_act hact)
  refine ⟨hinv.dest, fun i hplace hok ino j htemp hmade => ?_⟩
  exact hok hplace j (hinv.made htemp hmade)

/-- The run `i` is to write the octet `i` twice. -/
def twice (i : Nat) : Bytes := [i.toUInt8, i.toUInt8]

def allWriters : Procs Nat (DropIn Nat) Writer where
  shared := { temp := none, dest := none, content := fun _ => [], next := 0, madeBy := fun _ => none }
  place _ := .start

theorem begins_allWriters : Begins allWriters := ⟨fun _ => rfl, fun _ => rfl, fun hd => by cases hd⟩

/-- Run 1 cannot create the file that run 0 has made and then renames. -/
def losing : List (Nat × WriterEvent) :=
  [(0, .create), (1, .createFails), (0, .write 2), (0, .close), (0, .check), (0, .rename)]

/-- Run 1 comes to its cleanup when run 0 has returned. -/
theorem dropIn_complete_in_turn : ∃ d d' s place, play (writerAct (fun _ => true) twice) losing allWriters = some d ∧
    writerAct (fun _ => true) twice 1 .remove d.shared (d.place 1) = some (s, place) ∧ d' = d.move 1 s place ∧
    ((d'.shared.destBytes = none ∨ ∃ i, d'.shared.destBytes = some (twice i) ∧ true = true) ∧
      ∀ i, d'.place i = .leaving false → Unhurried d' i .remove →
        ∀ ino j, d'.shared.temp = some ino → d'.shared.madeBy ino ≠ some j) := by
  have hplaces : (play (writerAct (fun _ => true) twice) losing allWriters).map (fun d => (d.place 0, d.place 1)) =
      some (.returned true, .leaving false) := by decide
  obtain ⟨d, hplay, hd⟩ := Option.map_eq_some_iff.mp hplaces
  obtain ⟨hzero, hone⟩ := Prod.mk.inj hd
  have hrun : Reaches (writerAct (fun _ => true) twice) Unhurried allWriters d := by
    refine reaches_of_play (fun d i e hmem => ?_) hplay
    cases e <;> trivial
  have hnone : Unhurried d 1 .remove := by
    intro _ j
    by_cases hj : j = 0 ∨ j = 1
    · rcases hj with rfl | rfl
      · rw [hzero]
        exact id
      · rw [hone]
        exact id
    · rw [place_of_play hplay (by simp [losing]; omega)]
      exact id
  have hremove : writerAct (fun _ => true) twice 1 .remove d.shared (d.place 1) =
      some ({ d.shared with temp := none }, .returned false) := by rw [hone]; rfl
  exact ⟨d, _, _, _, hplay, hremove, rfl, dropIn_complete begins_allWriters (.step hrun hnone hremove)⟩

/-! ## Three runs in each other's way -/

/-- Run 0 writes its file; run 1 cannot create its own and removes that of run
0; run 2 creates the name anew, and run 0 renames the empty file. -/
def collision : List (Nat × WriterEvent) :=
  [(0, .create), (1, .createFails), (0, .write 2), (0, .close), (1, .remove), (2, .create), (0, .check), (0, .rename)]

/-- The destination then holds nothing of what any run writes. -/
theorem partial_dropIn : ¬∀ (accepts : Bytes → Bool) (content : Nat → Bytes) (c d : Procs Nat (DropIn Nat) Writer),
    Begins c → Reaches (writerAct accepts content) (fun _ _ _ => True) c d →
    d.shared.destBytes = c.shared.destBytes ∨
      ∃ i, d.shared.destBytes = some (content i) ∧ accepts (content i) = true := by
  intro h
  have hplay : (play (writerAct (fun _ => true) twice) collision allWriters).isSome = true := by decide
  have hbytes : (play (writerAct (fun _ => true) twice) collision allWriters).map (·.shared.destBytes) = some (some []) := by
    decide
  rw [← Option.some_get hplay, Option.map_some, Option.some_inj] at hbytes
  rcases h _ _ _ _ begins_allWriters (reaches_of_play (fun _ _ _ _ => trivial) (Option.some_get hplay).symm) with
    hsame | ⟨i, hi, -⟩
  · rw [hbytes] at hsame
    cases hsame
  · rw [hbytes] at hi
    cases hi

end SecureSudoers
