import GooglePerl.Protobuf.DescriptorPool

/-!
What a refused file leaves in a pool.

A symbol is registered as soon as it is met, and a clash is found when it is
met. So the pool is as it was exactly when the clash is at the first symbol of
all (`refused_iff`). Whatever is registered takes an address, and the counters
never go back (`Later`).
-/

namespace GooglePerl.Protobuf

open GooglePerl.Lib

namespace DescriptorPool

variable {file : FileKey} {push : ℕ → DescriptorPool → DescriptorPool}

/-! ### The counters -/

/-- What takes an address stays. -/
structure Later (p p' : DescriptorPool) : Prop where
  next : p.next ≤ p'.next
  nextFile : p.nextFile ≤ p'.nextFile

theorem Later.refl (p : DescriptorPool) : Later p p := ⟨le_rfl, le_rfl⟩

theorem Later.trans {p q r : DescriptorPool} (h : Later p q) (h' : Later q r) : Later p r :=
  ⟨h.next.trans h'.next, h.nextFile.trans h'.nextFile⟩

theorem addEnumData_later (file : FileKey) (e : EnumDescriptor) (pre : PerlStr)
    (p : DescriptorPool) : Later p (addEnumData file e pre p).2 := by
  by_cases h : pre ++ e.name ∈ Assoc.keys p.enums
  · rw [addEnumData_of_mem h]
    exact .refl p
  · rw [addEnumData_of_not_mem h]
    exact ⟨Nat.le_succ _, le_rfl⟩

theorem addEnums_later (hpush : ∀ a p, Later p (push a p)) (pre : PerlStr)
    (es : List EnumDescriptor) (p : DescriptorPool) :
    Later p (addEnums file push pre es p).2 := by
  induction es generalizing p with
  | nil => exact .refl p
  | cons e es ih =>
      refine Attempt.andThen_state (addEnumData_later file e pre p) fun a q hq => ?_
      have htail : Later p (addEnums file push pre es (push a q)).2 :=
        (hq.trans (hpush a q)).trans (ih (push a q))
      exact Attempt.andThen_state htail fun _ _ h => h

theorem later_pushNestedType (fullName : PerlStr) (a : ℕ) (p : DescriptorPool) :
    Later p (pushNestedType fullName a p) := ⟨le_rfl, le_rfl⟩

theorem later_pushEnumType (fullName : PerlStr) (a : ℕ) (p : DescriptorPool) :
    Later p (pushEnumType fullName a p) := ⟨le_rfl, le_rfl⟩

theorem later_registerMessage (p : DescriptorPool) (o : MessageObject) :
    Later p (p.registerMessage o) := ⟨Nat.le_succ _, le_rfl⟩

mutual

theorem addMessageData_later (file : FileKey) : ∀ (m : MessageDescriptor) (pre : PerlStr)
    (p : DescriptorPool), Later p (addMessageData file m pre p).2
  | ⟨name, field, nestedType, enumType, oneofDecl, options⟩, pre, p => by
      by_cases h : pre ++ name ∈ Assoc.keys p.messages
      · rw [addMessageData_of_mem h]
        exact .refl p
      · rw [addMessageData_of_not_mem h]
        have hnested := addMessages_later file (later_pushNestedType (pre ++ name))
          (pre ++ name ++ ps ".") nestedType
        refine Attempt.andThen_state
          ((later_registerMessage p _).trans (hnested _)) fun _ q hq => ?_
        have henums : Later p (addEnums file (pushEnumType (pre ++ name)) (pre ++ name ++ ps ".")
            enumType q).2 :=
          hq.trans (addEnums_later (later_pushEnumType _) _ _ q)
        exact Attempt.andThen_state henums fun _ _ h => h

theorem addMessages_later (file : FileKey) {push : ℕ → DescriptorPool → DescriptorPool}
    (hpush : ∀ a p, Later p (push a p)) (pre : PerlStr) : ∀ (ms : List MessageDescriptor)
    (p : DescriptorPool), Later p (addMessages file push pre ms p).2
  | [], p => .refl p
  | m :: ms, p => by
      refine Attempt.andThen_state (addMessageData_later file m pre p) fun a q hq => ?_
      have htail : Later p (addMessages file push pre ms (push a q)).2 :=
        (hq.trans (hpush a q)).trans (addMessages_later file hpush pre ms (push a q))
      exact Attempt.andThen_state htail fun _ _ h => h

end

theorem addFileData_later (p : DescriptorPool) (fd : FileDescriptor) :
    Later p (p.addFileData fd).2 := by
  refine Attempt.andThen_state (addMessages_later _ (fun _ p => .refl p) _ _ p) fun _ q hq => ?_
  refine Attempt.andThen_state (hq.trans (addEnums_later (fun _ p => .refl p) _ _ q))
    fun _ r hr => ?_
  exact ⟨hr.next, hr.nextFile.trans (Nat.le_succ _)⟩

theorem addFilesData_later (p : DescriptorPool) (fds : List FileDescriptor) :
    Later p (p.addFilesData fds).2 := by
  induction fds generalizing p with
  | nil => exact .refl p
  | cons fd fds ih =>
      refine Attempt.andThen_state (addFileData_later p fd) fun _ q hq => ?_
      exact Attempt.andThen_state (hq.trans (ih q)) fun _ _ h => h

/-! ### The first symbol -/

/-- The first symbol of a file, its first message or else its first enum, is already defined. -/
def FirstTaken (p : DescriptorPool) (fd : FileDescriptor) : Prop :=
  match fd.messageType, fd.enumType with
  | m :: _, _ => fd.symbolPrefix ++ m.name ∈ Assoc.keys p.messages
  | [], e :: _ => fd.symbolPrefix ++ e.name ∈ Assoc.keys p.enums
  | [], [] => False

/-- An address was taken. -/
def Moved (p p' : DescriptorPool) : Prop := p.next < p'.next ∨ p.nextFile < p'.nextFile

theorem Moved.ne {p p' : DescriptorPool} (h : Moved p p') : p' ≠ p := by
  rintro rfl
  rcases h with h | h
  · exact lt_irrefl _ h
  · exact lt_irrefl _ h

theorem Moved.trans {p q r : DescriptorPool} (h : Moved p q) (h' : Later q r) : Moved p r := by
  rcases h with h | h
  · exact .inl (h.trans_le h'.next)
  · exact .inr (h.trans_le h'.nextFile)

theorem addEnumData_moved {e : EnumDescriptor} {pre : PerlStr} {p : DescriptorPool}
    (h : pre ++ e.name ∉ Assoc.keys p.enums) : Moved p (addEnumData file e pre p).2 := by
  rw [addEnumData_of_not_mem h]
  exact .inl (Nat.lt_succ_self _)

theorem addMessageData_moved {m : MessageDescriptor} {pre : PerlStr} {p : DescriptorPool}
    (h : pre ++ m.name ∉ Assoc.keys p.messages) : Moved p (addMessageData file m pre p).2 := by
  rw [addMessageData_of_not_mem h]
  have hregister : Moved p (p.registerMessage (messageObject p.next file (pre ++ m.name) m)) :=
    .inl (Nat.lt_succ_self _)
  have hnested := addMessages_later file (later_pushNestedType (pre ++ m.name))
    (pre ++ m.name ++ ps ".") m.nestedType
  refine Attempt.andThen_state (hregister.trans (hnested _)) fun _ q hq => ?_
  exact Attempt.andThen_state (hq.trans (addEnums_later (later_pushEnumType _) _ _ q))
    fun _ _ h => h

theorem addMessages_cons_moved {m : MessageDescriptor} {ms : List MessageDescriptor}
    {pre : PerlStr} {p : DescriptorPool} (hpush : ∀ a p, Later p (push a p))
    (h : pre ++ m.name ∉ Assoc.keys p.messages) :
    Moved p (addMessages file push pre (m :: ms) p).2 := by
  refine Attempt.andThen_state (addMessageData_moved h) fun a q hq => ?_
  have htail := (hq.trans (hpush a q)).trans (addMessages_later file hpush pre ms (push a q))
  exact Attempt.andThen_state htail fun _ _ h => h

theorem addEnums_cons_moved {e : EnumDescriptor} {es : List EnumDescriptor} {pre : PerlStr}
    {p : DescriptorPool} (hpush : ∀ a p, Later p (push a p))
    (h : pre ++ e.name ∉ Assoc.keys p.enums) :
    Moved p (addEnums file push pre (e :: es) p).2 := by
  refine Attempt.andThen_state (addEnumData_moved h) fun a q hq => ?_
  have htail : Moved p (addEnums file push pre es (push a q)).2 :=
    (hq.trans (hpush a q)).trans (addEnums_later hpush pre es (push a q))
  exact Attempt.andThen_state htail fun _ _ h => h

/-- A file whose first symbol is taken is refused at once. -/
theorem addFileData_of_firstTaken {p : DescriptorPool} {fd : FileDescriptor}
    (h : FirstTaken p fd) : ∃ why, p.addFileData fd = (.error why, p) := by
  unfold FirstTaken at h
  unfold addFileData
  split at h
  · rename_i m ms _ hms
    simp only [hms, addMessages, addMessageData_of_mem h, Attempt.andThen_error]
    exact ⟨_, rfl⟩
  · rename_i e es hms hes
    simp only [hms, hes, addMessages, Attempt.andThen_ok, addEnums, addEnumData_of_mem h,
      Attempt.andThen_error]
    exact ⟨_, rfl⟩
  · exact h.elim

/-- Any other one leaves something behind. -/
theorem addFileData_moved {p : DescriptorPool} {fd : FileDescriptor} (h : ¬ FirstTaken p fd) :
    Moved p (p.addFileData fd).2 := by
  unfold FirstTaken at h
  unfold addFileData
  have hstay : ∀ (a : ℕ) (p : DescriptorPool), Later p p := fun _ p => .refl p
  split at h
  · rename_i m ms _ hms
    rw [hms]
    refine Attempt.andThen_state (addMessages_cons_moved hstay h) fun _ q hq => ?_
    refine Attempt.andThen_state (hq.trans (addEnums_later hstay _ _ q)) fun _ r hr => ?_
    exact hr.trans ⟨le_rfl, Nat.le_succ _⟩
  · rename_i e es hms hes
    simp only [hms, hes, addMessages, Attempt.andThen_ok]
    refine Attempt.andThen_state (addEnums_cons_moved hstay h) fun _ r hr => ?_
    exact hr.trans ⟨le_rfl, Nat.le_succ _⟩
  · rename_i hms hes
    rw [hms, hes]
    exact .inr (Nat.lt_succ_self _)

theorem addFilesData_eq_self_iff {p : DescriptorPool} {fd : FileDescriptor}
    {fds : List FileDescriptor} : (p.addFilesData (fd :: fds)).2 = p ↔ FirstTaken p fd := by
  constructor
  · intro h
    by_contra hfirst
    refine Moved.ne (p := p) ?_ h
    refine Attempt.andThen_state (addFileData_moved hfirst) fun _ q hq => ?_
    exact Attempt.andThen_state (hq.trans (addFilesData_later q fds)) fun _ _ h => h
  · intro h
    obtain ⟨why, hwhy⟩ := addFileData_of_firstTaken h
    rw [addFilesData, hwhy]
    rfl

end DescriptorPool

/-- A call that dies leaves the pool as it was exactly when its input does not parse, or the first
symbol of its first file is already defined. -/
theorem refused_iff {p p' : DescriptorPool} {load : Load} {why : Die}
    (h : load.run p = (.error why, p')) :
    p' = p ↔ (∃ why', load.parsed = .error why') ∨
      ∃ fd fds, load.parsed = .ok (fd :: fds) ∧ p.FirstTaken fd := by
  cases hparsed : load.parsed with
  | error why' =>
      rw [Load.run_of_error p hparsed] at h
      simp [(Prod.mk.inj h).2]
  | ok fds =>
      rw [Load.run_of_ok p hparsed, DescriptorPool.addFiles] at h
      have hpool : p' = (p.addFilesData fds).2 := by
        obtain ⟨hwhy, hp'⟩ := Prod.mk.inj h
        rw [← hp']
        rcases hadded : p.addFilesData fds with ⟨_ | files, q⟩
        · rfl
        · rw [hadded] at hwhy
          cases hwhy
      cases fds with
      | nil => simp [DescriptorPool.addFilesData, Except.map] at h
      | cons fd fds =>
          rw [hpool, DescriptorPool.addFilesData_eq_self_iff]
          simp

/-! ### Two pools -/

/-- The bytes of a file with messages of one-letter names. -/
def messagesFile (names : List ℕ) : PerlStr :=
  names.flatMap fun c => [34, 3, 10, 1, c]

/-- A pool with the message `A`. -/
def poolOfA : DescriptorPool := ((Load.file (messagesFile [65])).run {}).2

/-- A second file with the message `A` is refused, and the pool is as it was. -/
theorem refused_at_once :
    ((Load.file (messagesFile [65])).run poolOfA).2 = poolOfA := by
  have hrun : (Load.file (messagesFile [65])).run poolOfA =
      (.error (alreadyDefined (ps "A")), ((Load.file (messagesFile [65])).run poolOfA).2) := by
    rfl
  have htaken : ps "A" ∈ Assoc.keys poolOfA.messages := by decide
  exact (refused_iff hrun).mpr (.inr ⟨_, [], rfl, htaken⟩)

/-- One with the messages `B` and `A` is refused too, and `B` stays. -/
theorem refused_later :
    (∃ why, ((Load.file (messagesFile [66, 65])).run poolOfA).1 = .error why) ∧
      ((Load.file (messagesFile [66, 65])).run poolOfA).2 ≠ poolOfA := by
  refine ⟨⟨alreadyDefined (ps "A"), rfl⟩, fun h => ?_⟩
  have hcount := congrArg (fun p => p.messages.length) h
  exact absurd hcount (by decide)

end GooglePerl.Protobuf
