import ErasureField.BinaryField
import ErasureField.Proofs.Registry

/-!
Histories of calls. Tables and fields are asked for in six ways, and each way comes to
asking for the tables of one modulus; only the reply and the name in a refusal differ.
Over a whole history from the empty registry, calls of one modulus therefore share their
tables and calls of different moduli do not, whichever ways they take.
-/

namespace ErasureField

inductive Call where
  | defaultTables (w : Width)
  | tablesFor (m : Modulus)
  | prepare (w : Width)
  | ofWidth (w : Width)
  | ofModulus (m : Modulus)
  | ofChoice (choice : FieldChoice)

inductive Reply where
  | tables (shared : SharedTables)
  | prepared
  | field (f : BinaryField)

/-- The published tables that a reply refers to, if it refers to any. -/
def Reply.shared? : Reply → Option SharedTables
  | .tables shared => some shared
  | .prepared => none
  | .field f => some f.shared

namespace Call

def modulus : Call → Modulus
  | .defaultTables w | .prepare w | .ofWidth w => .ofWidth w
  | .tablesFor m | .ofModulus m => m
  | .ofChoice choice => choice.modulus

def answer : Call → Step Registry Reply
  | .defaultTables w => Reply.tables <$> Registry.defaultTables w
  | .tablesFor m => Reply.tables <$> Registry.tablesFor m
  | .prepare w => (fun _ => Reply.prepared) <$> Registry.prepare w
  | .ofWidth w => Reply.field <$> BinaryField.ofWidth w
  | .ofModulus m => Reply.field <$> BinaryField.ofModulus m
  | .ofChoice choice => Reply.field <$> BinaryField.ofChoice choice

def run (registry : Registry) (calls : List Call) : Registry :=
  calls.foldl (fun registry call => (call.answer.on registry).2) registry

/-- The registry after a sequence of calls that starts from the empty one. -/
def history (calls : List Call) : Registry := run .empty calls

/-- How the call at an index of a sequence ends. -/
def Ends (calls : List Call) (i : Nat) (call : Call) (outcome : Outcome Reply) : Prop :=
  calls[i]? = some call ∧ (call.answer.on (history (calls.take i))).1 = outcome

def Issued (calls : List Call) (f : BinaryField) : Prop :=
  ∃ i call, Ends calls i call (.ok (.field f))

def reply (call : Call) (shared : SharedTables) : Reply :=
  match call with
  | .defaultTables _ | .tablesFor _ => .tables shared
  | .prepare _ => .prepared
  | .ofWidth _ | .ofModulus _ | .ofChoice _ => .field ⟨shared⟩

def failure (call : Call) (failure : Failure) : Failure :=
  match call with
  | .defaultTables _ | .tablesFor _ | .prepare _ => failure
  | .ofWidth _ => failure.withOperation "GaloisField::new"
  | .ofModulus _ => failure.withOperation "GaloisField::with_polynomial"
  | .ofChoice ⟨_, some _⟩ => failure.withOperation "GaloisField::with_polynomial"
  | .ofChoice ⟨_, none⟩ => failure.withOperation "GaloisField::new"

variable {calls : List Call} {call : Call} {registry : Registry} {m : Modulus}

theorem eq_of_shared? {shared other : SharedTables} (h : (call.reply shared).shared? = some other) :
    shared = other := by
  cases call with
  | prepare w => cases h
  | defaultTables _ | tablesFor _ | ofWidth _ | ofModulus _ | ofChoice _ =>
    exact Option.some.inj h

/-- Every call asks for the tables of its modulus. -/
theorem answer_on (call : Call) (registry : Registry) :
    call.answer.on registry =
      ((((Registry.tablesFor call.modulus).on registry).1.map call.reply).mapError call.failure,
        ((Registry.tablesFor call.modulus).on registry).2) := by
  have hofWidth (w : Width) :
      (Reply.field <$> BinaryField.ofWidth w).on registry =
        ((((Registry.tablesFor (.ofWidth w)).on registry).1.map (.field ⟨·⟩)).mapError
          (.withOperation "GaloisField::new"),
          ((Registry.tablesFor (.ofWidth w)).on registry).2) := by
    simp only [BinaryField.ofWidth, Step.on_map, Step.on_withOperation, Registry.defaultTables_eq]
    rcases (Registry.tablesFor (Modulus.ofWidth w)).on registry with ⟨_ | _, _⟩ <;> rfl
  have hofModulus (m : Modulus) :
      (Reply.field <$> BinaryField.ofModulus m).on registry =
        ((((Registry.tablesFor m).on registry).1.map (.field ⟨·⟩)).mapError
          (.withOperation "GaloisField::with_polynomial"),
          ((Registry.tablesFor m).on registry).2) := by
    simp only [BinaryField.ofModulus, Step.on_map, Step.on_withOperation]
    rcases (Registry.tablesFor m).on registry with ⟨_ | _, _⟩ <;> rfl
  cases call with
  | defaultTables w =>
    simp only [answer, modulus, Step.on_map, Registry.defaultTables_eq]
    rcases (Registry.tablesFor (Modulus.ofWidth w)).on registry with ⟨_ | _, _⟩ <;> rfl
  | tablesFor m =>
    simp only [answer, modulus, Step.on_map]
    rcases (Registry.tablesFor m).on registry with ⟨_ | _, _⟩ <;> rfl
  | prepare w =>
    simp only [answer, modulus, Step.on_map, Registry.prepare, Step.on_bind,
      Registry.defaultTables_eq]
    rcases (Registry.tablesFor (Modulus.ofWidth w)).on registry with ⟨_ | _, _⟩ <;> rfl
  | ofWidth w => exact hofWidth w
  | ofModulus m => exact hofModulus m
  | ofChoice choice =>
    obtain ⟨w, _ | p⟩ := choice
    · exact hofWidth w
    · exact hofModulus ⟨w, p⟩

theorem answer_ok {tables : TableSet} (h : registry.Sound)
    (hbuild : TableSet.build call.modulus = .ok tables) :
    ∃ shared after, call.answer.on registry = (.ok (call.reply shared), after) ∧
      Registry.Serves call.modulus shared registry after := by
  obtain ⟨shared, after, hstep, hserves⟩ := h.tablesFor_ok hbuild
  refine ⟨shared, after, ?_, hserves⟩
  rw [answer_on, hstep]
  rfl

theorem answer_error {why : Failure} (h : registry.Sound)
    (hbuild : TableSet.build call.modulus = .error why) :
    call.answer.on registry = (.error (call.failure why), registry) := by
  rw [answer_on, h.tablesFor_error hbuild]
  rfl

theorem run_append (registry : Registry) (first second : List Call) :
    run registry (first ++ second) = run (run registry first) second :=
  List.foldl_append

/-- No call spoils a sound registry or loses an entry. -/
theorem sound_run (h : registry.Sound) (calls : List Call) :
    (run registry calls).Sound ∧ Registry.Extends registry (run registry calls) := by
  induction calls generalizing registry with
  | nil => exact ⟨h, .refl registry⟩
  | cons call rest ih =>
    have hstep : (call.answer.on registry).2.Sound ∧
        Registry.Extends registry (call.answer.on registry).2 := by
      cases hbuild : TableSet.build call.modulus with
      | ok tables =>
        obtain ⟨shared, after, hanswer, hserves⟩ := answer_ok h hbuild
        rw [hanswer]
        exact ⟨hserves.sound, hserves.growth⟩
      | error why =>
        rw [answer_error h hbuild]
        exact ⟨h, .refl registry⟩
    obtain ⟨hsound, hgrowth⟩ := ih hstep.1
    exact ⟨hsound, hstep.2.trans hgrowth⟩

/-- A modulus has an entry once it is admitted and a call has come to it. -/
theorem isSome_find?_run (h : registry.Sound) (calls : List Call) (m : Modulus) :
    ((run registry calls).find? m).isSome = true ↔ (registry.find? m).isSome = true ∨
      (∃ call ∈ calls, call.modulus = m) ∧ ∃ tables, TableSet.build m = .ok tables := by
  induction calls generalizing registry with
  | nil => simp [run]
  | cons call rest ih =>
    show ((run (call.answer.on registry).2 rest).find? m).isSome = true ↔ _
    cases hbuild : TableSet.build call.modulus with
    | ok tables =>
      obtain ⟨shared, after, hanswer, hserves⟩ := answer_ok h hbuild
      rw [hanswer, ih hserves.sound]
      by_cases hm : call.modulus = m
      · subst hm
        simp [hserves.found, hbuild]
      · rw [hserves.unasked (Ne.symm hm)]
        simp [hm]
    | error why =>
      rw [answer_error h hbuild, ih h]
      by_cases hm : call.modulus = m
      · subst hm
        simp [hbuild]
      · simp [hm]

theorem sound_history (calls : List Call) : (history calls).Sound :=
  (sound_run Registry.sound_empty calls).1

theorem extends_history (calls : List Call) (i : Nat) :
    Registry.Extends (history (calls.take i)) (history calls) := by
  have hsplit : history calls = run (history (calls.take i)) (calls.drop i) := by
    rw [history, history, ← run_append, List.take_append_drop]
  rw [hsplit]
  exact (sound_run (sound_history _) _).2

theorem history_take_succ {i : Nat} (h : calls[i]? = some call) :
    history (calls.take (i + 1)) = (call.answer.on (history (calls.take i))).2 := by
  rw [List.take_add_one, h, history, run_append]
  rfl

/-- A successful call has the tables of its modulus, and they stay its entry to the end. -/
theorem Ends.served {i : Nat} {r : Reply} (h : Ends calls i call (.ok r)) :
    ∃ shared, r = call.reply shared ∧ TableSet.build call.modulus = .ok shared.tables ∧
      (history calls).find? call.modulus = some shared := by
  obtain ⟨hcall, hends⟩ := h
  have hsound := sound_history (calls.take i)
  cases hbuild : TableSet.build call.modulus with
  | error why =>
    rw [answer_error hsound hbuild] at hends
    cases hends
  | ok tables =>
    obtain ⟨shared, after, hanswer, hserves⟩ := answer_ok hsound hbuild
    have hafter := history_take_succ hcall
    rw [hanswer] at hends hafter
    cases hends
    refine ⟨shared, rfl, ?_, ?_⟩
    · rw [← hbuild, hserves.sound.built hserves.found]
    · apply (extends_history calls (i + 1)).found
      rw [hafter]
      exact hserves.found

/-- A refused call has a modulus that is not admitted. -/
theorem Ends.refused {i : Nat} {why : Failure} (h : Ends calls i call (.error why)) :
    ∃ cause, TableSet.build call.modulus = .error cause ∧ why = call.failure cause := by
  obtain ⟨_, hends⟩ := h
  have hsound := sound_history (calls.take i)
  cases hbuild : TableSet.build call.modulus with
  | ok tables =>
    obtain ⟨shared, after, hanswer, _⟩ := answer_ok hsound hbuild
    rw [hanswer] at hends
    cases hends
  | error cause =>
    rw [answer_error hsound hbuild] at hends
    cases hends
    exact ⟨cause, rfl, rfl⟩

/-- Successful calls share their tables if and only if they come to one modulus. -/
theorem Ends.position_eq_iff {i j : Nat} {c d : Call} {r s : Reply} {p q : SharedTables}
    (hc : Ends calls i c (.ok r)) (hd : Ends calls j d (.ok s)) (hr : r.shared? = some p)
    (hs : s.shared? = some q) : p.position = q.position ↔ c.modulus = d.modulus := by
  obtain ⟨shared, rfl, _, hfound⟩ := hc.served
  obtain ⟨other, rfl, _, hfound'⟩ := hd.served
  rw [← eq_of_shared? hr, ← eq_of_shared? hs]
  constructor
  · exact (sound_history calls).modulus_eq hfound hfound'
  · intro hmodulus
    rw [hmodulus, hfound'] at hfound
    rw [Option.some.inj hfound]

theorem isPrepared_history_iff (calls : List Call) (w : Width) :
    (history calls).isPrepared w = true ↔ ∃ call ∈ calls, call.modulus = .ofWidth w := by
  obtain ⟨tables, hbuild, _⟩ := TableSet.build_of_admissible (Modulus.admissible_ofWidth w)
  rw [Registry.isPrepared, ← Registry.find?_ofWidth, history,
    isSome_find?_run Registry.sound_empty]
  simp [hbuild]

/-- A refused call leaves the registry as it was, and is refused for the same reason at
any later point. -/
theorem Ends.refused_again {i j : Nat} {why : Failure} (h : Ends calls i call (.error why)) :
    call.answer.on (history (calls.take j)) = (.error why, history (calls.take j)) := by
  obtain ⟨cause, hbuild, rfl⟩ := h.refused
  exact answer_error (sound_history _) hbuild

theorem field_beq_iff (f g : BinaryField) :
    (f == g) = true ↔ f.shared.position = g.shared.position := by
  show (f.shared.position == g.shared.position) = true ↔ _
  exact beq_iff_eq

/-- The default field of a width is issued when it is asked for. -/
theorem exists_issued (w : Width) :
    ∃ f, Issued [.ofWidth w] f ∧ f.tables.Holds (Modulus.ofWidth w) := by
  obtain ⟨tables, hbuild, _⟩ := TableSet.build_of_admissible (Modulus.admissible_ofWidth w)
  obtain ⟨shared, after, hanswer, hserves⟩ :
      ∃ shared after, (answer (.ofWidth w)).on .empty = (.ok (.field ⟨shared⟩), after) ∧
        Registry.Serves (.ofWidth w) shared .empty after :=
    answer_ok Registry.sound_empty hbuild
  have hfresh := hserves.sound.built hserves.found
  exact ⟨⟨shared⟩, ⟨0, .ofWidth w, rfl, congrArg Prod.fst hanswer⟩,
    TableSet.holds_of_build hfresh⟩

theorem Issued.found {f : BinaryField} (h : Issued calls f) :
    ∃ m, TableSet.build m = .ok f.tables ∧ (history calls).find? m = some f.shared := by
  obtain ⟨i, call, hends⟩ := h
  obtain ⟨shared, hreply, hbuild, hfound⟩ := hends.served
  have hshared : (call.reply shared).shared? = some f.shared := by
    rw [← hreply]
    rfl
  rw [eq_of_shared? hshared] at hbuild hfound
  exact ⟨call.modulus, hbuild, hfound⟩

/-- Fields that are equal as handles are equal. -/
theorem Issued.eq_of_beq {f g : BinaryField} (hf : Issued calls f) (hg : Issued calls g)
    (h : (f == g) = true) : f = g := by
  obtain ⟨m, _, hfoundf⟩ := hf.found
  obtain ⟨n, _, hfoundg⟩ := hg.found
  have hmodulus : m = n :=
    (sound_history calls).modulus_eq hfoundf hfoundg ((field_beq_iff f g).mp h)
  rw [hmodulus, hfoundg] at hfoundf
  exact congrArg BinaryField.mk (Option.some.inj hfoundf).symm

/-- The ways to ask for the default field of a width: by the width, by its polynomial,
and by a choice that names the polynomial or does not. -/
def forDefaultField (w : Width) : List Call :=
  [.ofWidth w, .ofModulus (.ofWidth w), .ofChoice (.ofWidth w),
    .ofChoice ((FieldChoice.ofWidth w).withPolynomial w.defaultPolynomial)]

theorem modulus_of_mem_forDefaultField {w : Width} (h : call ∈ forDefaultField w) :
    call.modulus = .ofWidth w := by
  simp only [forDefaultField, List.mem_cons, List.not_mem_nil, or_false] at h
  rcases h with rfl | rfl | rfl | rfl <;> rfl

/-- In any sequence of calls that starts from the empty registry, a call succeeds when
building its modulus does, and then refers to tables of that modulus with the contents of
a fresh build. Two successful calls refer to the same tables, and their fields are equal,
if and only if they come to one modulus; all ways to ask for a default field do. A refused
call changes nothing and is refused for the same reason at any later point. A width is
prepared when some call has come to its default polynomial. -/
theorem tables_shared_by_modulus (calls : List Call) :
    (∀ i c, calls[i]? = some c →
      ((∃ r, Ends calls i c (.ok r)) ↔ ∃ tables, TableSet.build c.modulus = .ok tables)) ∧
    (∀ i c r p, Ends calls i c (.ok r) → r.shared? = some p →
      p.tables.modulus = c.modulus ∧ TableSet.build c.modulus = .ok p.tables) ∧
    (∀ i j c d r s p q, Ends calls i c (.ok r) → Ends calls j d (.ok s) →
      r.shared? = some p → s.shared? = some q →
      (p.position = q.position ↔ c.modulus = d.modulus)) ∧
    (∀ i j c d f g, Ends calls i c (.ok (.field f)) → Ends calls j d (.ok (.field g)) →
      ((f == g) = true ↔ c.modulus = d.modulus)) ∧
    (∀ i j w c d f g, c ∈ forDefaultField w → d ∈ forDefaultField w →
      Ends calls i c (.ok (.field f)) → Ends calls j d (.ok (.field g)) → (f == g) = true) ∧
    (∀ i c why, Ends calls i c (.error why) →
      history (calls.take (i + 1)) = history (calls.take i) ∧
      ∀ j, i ≤ j →
        c.answer.on (history (calls.take j)) = (.error why, history (calls.take j))) ∧
    (∀ w, (history calls).isPrepared w = true ↔ ∃ c ∈ calls, c.modulus = .ofWidth w) := by
  have hequal : ∀ i j c d f g, Ends calls i c (.ok (.field f)) →
      Ends calls j d (.ok (.field g)) → ((f == g) = true ↔ c.modulus = d.modulus) := by
    intro i j c d f g hc hd
    rw [field_beq_iff]
    exact hc.position_eq_iff hd rfl rfl
  refine ⟨?_, ?_, ?_, hequal, ?_, ?_, isPrepared_history_iff calls⟩
  · intro i c hcall
    constructor
    · rintro ⟨r, hends⟩
      obtain ⟨shared, _, hbuild, _⟩ := hends.served
      exact ⟨shared.tables, hbuild⟩
    · rintro ⟨tables, hbuild⟩
      obtain ⟨shared, after, hanswer, _⟩ := answer_ok (sound_history (calls.take i)) hbuild
      exact ⟨c.reply shared, hcall, congrArg Prod.fst hanswer⟩
  · intro i c r p hends hr
    obtain ⟨shared, rfl, hbuild, _⟩ := hends.served
    rw [← eq_of_shared? hr]
    exact ⟨(TableSet.holds_of_build hbuild).modulus_eq, hbuild⟩
  · intro i j c d r s p q hc hd hr hs
    exact hc.position_eq_iff hd hr hs
  · intro i j w c d f g hc hd hends hends'
    rw [hequal i j c d f g hends hends', modulus_of_mem_forDefaultField hc,
      modulus_of_mem_forDefaultField hd]
  · intro i c why hends
    refine ⟨?_, fun j _ => hends.refused_again⟩
    rw [history_take_succ hends.1, hends.refused_again]

/-- The default field of width 8 asked for in two ways, another field, and a polynomial
that is refused. -/
theorem tables_shared_by_modulus_w8 :
    ∃ f g h, ∃ calls : List Call,
      Ends calls 0 (.ofWidth .w8) (.ok (.field f)) ∧
      Ends calls 1 (.ofModulus ⟨.w8, 0x12B⟩) (.ok (.field g)) ∧
      Ends calls 2 (.ofChoice ⟨.w8, some 0x11D⟩) (.ok (.field h)) ∧
      (∃ why, Ends calls 3 (.tablesFor ⟨.w8, 0x100⟩) (.error why)) ∧
      (f == h) = true ∧ (f == g) = false ∧ (history calls).isPrepared .w16 = false := by
  let calls : List Call :=
    [.ofWidth .w8, .ofModulus ⟨.w8, 0x12B⟩, .ofChoice ⟨.w8, some 0x11D⟩, .tablesFor ⟨.w8, 0x100⟩]
  obtain ⟨hsucceeds, _, _, hequal, hdefault, _, hprepared⟩ := tables_shared_by_modulus calls
  have hother : (⟨.w8, 0x12B⟩ : Modulus).Admissible := by
    have hdegree : (⟨.w8, 0x12B⟩ : Modulus).HasDegree := by
      unfold Modulus.HasDegree
      decide
    exact Modulus.admissible_iff.mpr
      ⟨hdegree, hdegree.isPrimitive_iff.mp (by decide +kernel)⟩
  have hrefused : TableSet.build ⟨.w8, 0x100⟩ =
      .misconfigured "field polynomial" (.divisibleByX ⟨.w8, 0x100⟩) := rfl
  obtain ⟨t, ht, _⟩ := TableSet.build_of_admissible (Modulus.admissible_ofWidth .w8)
  obtain ⟨u, hu, _⟩ := TableSet.build_of_admissible hother
  obtain ⟨r, hr⟩ := (hsucceeds 0 (.ofWidth .w8) rfl).mpr ⟨t, ht⟩
  obtain ⟨s, hs⟩ := (hsucceeds 1 (.ofModulus ⟨.w8, 0x12B⟩) rfl).mpr ⟨u, hu⟩
  obtain ⟨q, hq⟩ := (hsucceeds 2 (.ofChoice ⟨.w8, some 0x11D⟩) rfl).mpr ⟨t, ht⟩
  obtain ⟨f, rfl, _⟩ := hr.served
  obtain ⟨g, rfl, _⟩ := hs.served
  obtain ⟨h, rfl, _⟩ := hq.served
  have hanswer : (answer (.tablesFor ⟨.w8, 0x100⟩)).on (history (calls.take 3)) = _ :=
    answer_error (sound_history _) hrefused
  refine ⟨⟨f⟩, ⟨g⟩, ⟨h⟩, calls, hr, hs, hq, ⟨_, rfl, congrArg Prod.fst hanswer⟩, ?_, ?_, ?_⟩
  · exact hdefault 0 2 .w8 _ _ _ _ (by simp [forDefaultField])
      (by simp [forDefaultField, FieldChoice.withPolynomial, FieldChoice.ofWidth,
        Width.defaultPolynomial, Width.params]) hr hq
  · rw [Bool.eq_false_iff, ne_eq, hequal 0 1 _ _ _ _ hr hs]
    decide
  · rw [Bool.eq_false_iff, ne_eq, hprepared]
    decide

end Call

end ErasureField
