import Clockwork.Proofs.Refinement
import Clockwork.Proofs.StateName

namespace Clockwork
set_option autoImplicit true

variable {p : ClockedProcess Expr} {m : Machine Expr} {v u : Valuation}
  {ts : List (Transition Expr)}

theorem mem_keys_promote_iff {registers : Table String Nat} :
    x ∈ (promote p ts registers y).keys ↔ x ∈ registers.keys ∨ p.isPort y = false ∧ x = y := by
  unfold promote
  split
  · next hskip =>
    constructor
    · exact .inl
    · rintro (hx | ⟨hport, rfl⟩)
      · exact hx
      · rw [hport, Bool.false_or, Table.contains_iff] at hskip
        exact hskip
  · next hnew =>
    rw [Bool.or_eq_true, not_or, Bool.not_eq_true] at hnew
    rw [Table.keys_insert, mem_addNew]
    constructor
    · exact Or.imp_right fun hx => ⟨hnew.1, hx⟩
    · exact Or.imp_right And.right

theorem mem_keys_promoteAll {read : List String} {registers : Table String Nat} :
    x ∈ (read.foldl (promote p ts) registers).keys ↔
      x ∈ registers.keys ∨ p.isPort x = false ∧ x ∈ read := by
  induction read generalizing registers with
  | nil => simp
  | cons y read ih =>
    have hhead : p.isPort y = false ∧ x = y ↔ p.isPort x = false ∧ x = y := by
      constructor
      · rintro ⟨hport, rfl⟩
        exact ⟨hport, rfl⟩
      · rintro ⟨hport, rfl⟩
        exact ⟨hport, rfl⟩
    rw [List.foldl_cons, ih, mem_keys_promote_iff, hhead, List.mem_cons, and_or_left, or_assoc]

theorem Machine.mem_keys_ofPaths (p : ClockedProcess Expr) (declared : List (String × Nat))
    (n : Nat) (y : String) (paths : List Path) (x : String) :
    x ∈ (Machine.ofPaths p declared n y paths).registers.keys ↔
      x = y ∨ x ∈ declared.map Prod.fst ∨ p.isPort x = false ∧
        ∃ t ∈ (Machine.ofPaths p declared n y paths).transitions,
          x ∈ t.guards.flatMap Expr.vars := by
  have hstate : (Table.empty.insert y (bitWidth n)).keys = [y] := rfl
  unfold ofPaths
  simp only [mem_keys_promoteAll, Table.mem_keys_foldl_insertIfNew, hstate, List.mem_singleton,
    List.mem_flatMap (l := List.map _ _), or_assoc]

theorem Valuation.holdAll_congr (h : ∀ x ∈ es.flatMap Expr.vars, v.get? x = u.get? x) :
    v.holdAll es = u.holdAll es := by
  induction es with
  | nil => rfl
  | cons e es ih =>
    rw [List.flatMap_cons, List.forall_mem_append] at h
    have heval : v.eval e = u.eval e := by
      rw [Valuation.eval, Valuation.eval, Expr.eval_congr h.1]
    rw [holdAll, holdAll, heval, ih h.2]

theorem firing_congr (h : ∀ t ∈ ts, t.fires v = t.fires u) : firing v ts = firing u ts := by
  induction ts with
  | nil => rfl
  | cons t ts ih =>
    obtain ⟨ht, hts⟩ := List.forall_mem_cons.1 h
    rw [firing, firing, ht, ih hts]

theorem Machine.activation_ofPaths {declared : List (String × Nat)} {paths : List Path}
    (ht : t ∈ (Machine.ofPaths p declared n y paths).transitions) : t.activation.vars = [y] := by
  obtain ⟨path, _, rfl⟩ := List.mem_map.1 ht
  rfl

/-- The registers and the ports decide at every clock edge which transitions fire. Nothing makes a
register of a name that is only read where a value is assigned. -/
theorem compile_registers (h : p.compile options = .ok m) :
    ∃ flow, p.flow = .ok flow ∧
      (∀ x, x ∈ m.registers.keys ↔ x = m.stateVar ∨ x ∈ flow.registers.map Prod.fst ∨
        p.isPort x = false ∧ ∃ t ∈ m.transitions, x ∈ t.guards.flatMap Expr.vars) ∧
      ∀ v u : Valuation, (∀ x, x ∈ m.registers.keys ∨ p.isPort x → v.get? x = u.get? x) →
        firing v m.transitions = firing u m.transitions := by
  obtain ⟨flow, paths, hflow, _, _, rfl⟩ := ClockedProcess.compile_eq_ok h
  have hregisters : (flow.simplify options.bypass).registers = flow.registers := by
    simp only [Flow.registers, Flow.simplify, (Graph.simplify_within _ _).registers]
  have hkeys := Machine.mem_keys_ofPaths p (flow.simplify options.bypass).registers
    (flow.simplify options.bypass).graph.suspensionCount options.stateVar paths
  refine ⟨flow, hflow, fun x => hregisters ▸ hkeys x, ?_⟩
  intro v u hvu
  apply firing_congr
  intro t ht
  apply Valuation.holdAll_congr
  intro x hx
  rw [List.flatMap_cons, Machine.activation_ofPaths ht, List.singleton_append, List.mem_cons] at hx
  apply hvu
  rcases hx with hstate | hguard
  · exact .inl ((hkeys x).2 (.inl hstate))
  · cases hport : p.isPort x with
    | true => exact .inr rfl
    | false => exact .inl ((hkeys x).2 (.inr (.inr ⟨hport, t, ht, hguard⟩)))

/-- A process that passes on at one clock edge what it has read at the one before. -/
def relayProcess : ClockedProcess Expr where
  name := "relay"
  ports := (Table.empty.insert "a" .input).insert "b" .output
  body := [.loop (.bool true)
    [.assign ["t"] (.var "a"), .suspend, .assign ["b"] (.var "t"), .suspend]]

theorem compile_registers_relayProcess :
    ∃ m flow, relayProcess.compile .default = .ok m ∧ relayProcess.flow = .ok flow ∧
      (∀ x, x ∈ m.registers.keys ↔ x = m.stateVar ∨ x ∈ flow.registers.map Prod.fst ∨
        relayProcess.isPort x = false ∧ ∃ t ∈ m.transitions, x ∈ t.guards.flatMap Expr.vars) ∧
      ∀ v u : Valuation,
        (∀ x, x ∈ m.registers.keys ∨ relayProcess.isPort x → v.get? x = u.get? x) →
        firing v m.transitions = firing u m.transitions := by
  have hmachine : ((relayProcess.compile .default).toOption.map Machine.suspensionCount) =
      some 2 := by
    decide +kernel
  obtain ⟨m, hm, _⟩ := Option.map_eq_some_iff.1 hmachine
  rw [Except.toOption_eq_some] at hm
  obtain ⟨flow, hflow, hregisters⟩ := compile_registers hm
  exact ⟨m, flow, hm, hflow, hregisters⟩

/-- One transition assigns the name, the next one passes its value on, and it is no register: with
the same values of the registers and the ports the output is another one. -/
theorem relayed_name_no_register :
    ∃ m, relayProcess.compile .default = .ok m ∧ relayProcess.isPort "t" = false ∧
      (∃ t ∈ m.transitions, Stmt.assign ["t"] (.var "a") ∈ t.effects) ∧
      (∃ t ∈ m.transitions, "t" ∈ t.reads) ∧ "t" ∉ m.registers.keys ∧
      (MachineRun.run m .zero [.set "a" (.int 7), .step, .step]).2.values.get? "b" =
        some (.int 7) ∧
      (MachineRun.run m .zero [.set "a" (.int 7), .step, .set "t" (.int 0), .step]).2.values.get?
        "b" = some (.int 0) := by
  have hmachine : ((relayProcess.compile .default).toOption.map fun m =>
      decide (relayProcess.isPort "t" = false ∧
        (∃ t ∈ m.transitions, Stmt.assign ["t"] (.var "a") ∈ t.effects) ∧
        (∃ t ∈ m.transitions, "t" ∈ t.reads) ∧ "t" ∉ m.registers.keys ∧
        (MachineRun.run m .zero [.set "a" (.int 7), .step, .step]).2.values.get? "b" =
          some (.int 7) ∧
        (MachineRun.run m .zero [.set "a" (.int 7), .step, .set "t" (.int 0),
          .step]).2.values.get? "b" = some (.int 0))) = some true := by
    decide +kernel
  obtain ⟨m, hm, hfacts⟩ := Option.map_eq_some_iff.1 hmachine
  exact ⟨m, Except.toOption_eq_some.1 hm, of_decide_eq_true hfacts⟩

end Clockwork
