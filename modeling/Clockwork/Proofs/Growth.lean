import Clockwork.Proofs.Construction

namespace Clockwork
set_option autoImplicit true

mutual

/-- The number of places in a statement at which it waits. -/
def Stmt.suspensions : Stmt Expr → Nat
  | .suspend => 1
  | .branch _ ts es => Stmt.listSuspensions ts + Stmt.listSuspensions es
  | .loop _ body => Stmt.listSuspensions body
  | _ => 0

def Stmt.listSuspensions : List (Stmt Expr) → Nat
  | [] => 0
  | s :: rest => s.suspensions + Stmt.listSuspensions rest

end

namespace Node

/-- Where the outgoing edges lead. -/
def targets (n : Node) : List (Option NodeId) := n.edges.map Prod.snd

def IsHead : Node → Prop
  | .head _ => True
  | _ => False

/-- What can still happen to a node while a graph is built: an open block takes more statements and
an edge, and the false edge of a branch is filled in. -/
inductive Grows : Node → Node → Prop
  | refl (n : Node) : Grows n n
  | block (ss ts : List (Stmt Expr)) (next : Option NodeId) :
    Grows (.block ss none) (.block (ss ++ ts) next)
  | branch (c : Expr) (t f : Option NodeId) : Grows (.branch c t none) (.branch c t f)

theorem Grows.seal (ss : List (Stmt Expr)) (next : Option NodeId) :
    Grows (.block ss none) (.block ss next) := by
  have h := Grows.block ss [] next
  rwa [List.append_nil] at h

theorem Grows.trans {n m k : Node} (h : n.Grows m) (h' : m.Grows k) : n.Grows k := by
  cases h with
  | refl => exact h'
  | block ss ts next =>
    cases h' with
    | refl => exact .block ss ts next
    | block _ us next' =>
      rw [List.append_assoc]
      exact .block ss (ts ++ us) next'
  | branch c t f =>
    cases h' with
    | refl => exact .branch c t f
    | branch _ _ f' => exact .branch c t f'

theorem Grows.eq_of_complete {n m : Node} (h : n.Grows m) (hn : none ∉ n.targets) : m = n := by
  cases h with
  | refl => rfl
  | block => exact (hn List.mem_cons_self).elim
  | branch => exact (hn (List.mem_cons_of_mem _ List.mem_cons_self)).elim

/-- A node of a draft of a given size: only the first one is a head, its edges lead to other nodes
of the draft, and an edge is missing only if the node is loose. -/
structure Fits (fresh : Nat) (i : NodeId) (loose : Prop) (n : Node) : Prop where
  head : n.IsHead → i = 0
  targets : ∀ j, some j ∈ n.targets → 0 < j ∧ j < fresh
  complete : none ∈ n.targets → loose

theorem Fits.mono (h : Fits fresh i loose n) (hle : fresh ≤ fresh') (hl : loose → loose') :
    Fits fresh' i loose' n where
  head := h.head
  targets j hj := by
    obtain ⟨hpos, hlt⟩ := h.targets j hj
    exact ⟨hpos, Nat.lt_of_lt_of_le hlt hle⟩
  complete hn := hl (h.complete hn)

theorem Fits.block (ss : List (Stmt Expr)) (hj : 0 < j ∧ j < fresh) :
    Fits fresh i loose (.block ss (some j)) where
  head := nofun
  targets k hk := by
    cases List.mem_singleton.1 hk
    exact hj
  complete hn := nomatch List.mem_singleton.1 hn

theorem Fits.openBlock (ss : List (Stmt Expr)) (hl : loose) :
    Fits fresh i loose (.block ss none) where
  head := nofun
  targets _ hj := nomatch List.mem_singleton.1 hj
  complete _ := hl

theorem Fits.suspend (id : Nat) (hj : 0 < j ∧ j < fresh) :
    Fits fresh i loose (.suspend id (some j)) where
  head := nofun
  targets k hk := by
    cases List.mem_singleton.1 hk
    exact hj
  complete hn := nomatch List.mem_singleton.1 hn

theorem Fits.openBranch (c : Expr) (hj : 0 < j ∧ j < fresh) (hl : loose) :
    Fits fresh i loose (.branch c (some j) none) where
  head := nofun
  targets k hk := by
    rcases List.mem_cons.1 hk with hk | hk
    · cases hk
      exact hj
    · cases List.mem_singleton.1 hk
  complete _ := hl

theorem Fits.withFalse (h : Fits fresh i loose (.branch c (some t) none))
    (hf : 0 < f ∧ f < fresh) : Fits fresh i loose' (.branch c (some t) (some f)) where
  head := nofun
  targets j hj := by
    rcases List.mem_cons.1 hj with hj | hj
    · cases hj
      exact h.targets t List.mem_cons_self
    · cases List.mem_singleton.1 hj
      exact hf
  complete hn := by
    rcases List.mem_cons.1 hn with hn | hn
    · cases hn
    · cases List.mem_singleton.1 hn

end Node

/-- A later stage of a graph under construction. -/
structure Graph.Grows (g h : Graph) : Prop where
  registers : h.registers = g.registers
  node : ∀ i n, g.node? i = some n → ∃ m, h.node? i = some m ∧ n.Grows m

theorem Graph.Grows.refl (g : Graph) : g.Grows g :=
  ⟨rfl, fun _ n hn => ⟨n, hn, .refl n⟩⟩

theorem Graph.Grows.trans {g h k : Graph} (hg : g.Grows h) (hh : h.Grows k) : g.Grows k where
  registers := hh.registers.trans hg.registers
  node i n hn := by
    obtain ⟨m, hm, hnm⟩ := hg.node i n hn
    obtain ⟨l, hl, hml⟩ := hh.node i m hm
    exact ⟨l, hl, hnm.trans hml⟩

/-- A node without missing edges stays as it is. -/
theorem Graph.Grows.keep {g h : Graph} {n : Node} (hg : g.Grows h) (hi : g.node? i = some n)
    (hn : none ∉ n.targets) : h.node? i = some n := by
  obtain ⟨m, hm, hnm⟩ := hg.node i n hi
  rw [hm, hnm.eq_of_complete hn]

namespace Draft

variable {d d' : Draft} {n : Node} {s : Stmt Expr} {changes loose rest : List (NodeId × Node)}

theorem fresh_push (d : Draft) (n : Node) : (d.push n).fresh = d.fresh + 1 :=
  Array.size_push _

theorem fresh_modify (d : Draft) (i : NodeId) (f : Node → Node) :
    (d.modify i f).fresh = d.fresh :=
  Array.size_modify

theorem fresh_connect (d : Draft) (i j : NodeId) : (d.connect i j).fresh = d.fresh :=
  fresh_modify d i _

theorem current_startBranch (d : Draft) (c : Expr) : (d.startBranch c).current = d.fresh + 1 :=
  (fresh_connect _ _ _).trans (fresh_push d _)

theorem current_suspend (d : Draft) : d.suspend.current = d.fresh + 1 :=
  (fresh_connect _ _ _).trans (fresh_push d _)

theorem current_startFalse (d : Draft) (b : NodeId) : (d.startFalse b).current = d.fresh :=
  fresh_modify d b _

theorem current_connect_startFalse (d : Draft) (i j b : NodeId) :
    ((d.connect i j).startFalse b).current = d.fresh :=
  (current_startFalse _ b).trans (fresh_connect d i j)

theorem current_join (d : Draft) (e i j k : NodeId) :
    ((d.connect e i).connect j k).startBlock.current = d.fresh :=
  (fresh_connect _ _ _).trans (fresh_connect d _ _)

theorem node?_modify (d : Draft) (i j : NodeId) (f : Node → Node) :
    (d.modify i f).graph.node? j =
      if j = i then (d.graph.node? j).map f else d.graph.node? j := by
  rw [modify, Graph.node?_modify]
  simp only [eq_comm]

/-- The second draft is the first one with some nodes added or replaced. -/
structure Edits (d : Draft) (changes : List (NodeId × Node)) (d' : Draft) : Prop where
  registers : d'.graph.registers = d.graph.registers
  fresh : ∀ i, i < d'.fresh ↔ i < d.fresh ∨ i ∈ changes.map Prod.fst
  node : ∀ i, d'.graph.node? i = (entryOf? i changes).or (d.graph.node? i)

theorem Edits.change (h : d.Edits changes d') (hi : entryOf? i changes = some n) :
    d'.graph.node? i = some n := by
  rw [h.node, hi]
  rfl

theorem Edits.keep (h : d.Edits changes d') (hi : i ∉ changes.map Prod.fst) :
    d'.graph.node? i = d.graph.node? i := by
  rw [h.node, entryOf?_eq_none hi]
  rfl

theorem Edits.node_cases (h : d.Edits changes d') (hi : d'.graph.node? i = some n) :
    (i, n) ∈ changes ∨ i ∉ changes.map Prod.fst ∧ d.graph.node? i = some n := by
  by_cases hmem : i ∈ changes.map Prod.fst
  · obtain ⟨m, hm⟩ := Option.isSome_iff_exists.1 ((isSome_entryOf? i changes).2 hmem)
    rw [h.node, hm] at hi
    cases hi
    exact .inl (entryOf?_mem hm)
  · rw [h.keep hmem] at hi
    exact .inr ⟨hmem, hi⟩

theorem Edits.fresh_le (h : d.Edits changes d') : d.fresh ≤ d'.fresh := by
  apply Nat.le_of_not_lt
  intro hlt
  exact Nat.lt_irrefl d'.fresh ((h.fresh _).2 (.inl hlt))

theorem Edits.gapless (h : d.Edits changes d')
    (hd : ∀ i, i < d.fresh → ∃ n, d.graph.node? i = some n) (hi : i < d'.fresh) :
    ∃ n, d'.graph.node? i = some n := by
  rw [h.node]
  cases he : entryOf? i changes with
  | some n => exact ⟨n, rfl⟩
  | none =>
    rcases (h.fresh i).1 hi with hi | hi
    · exact hd i hi
    · rw [← isSome_entryOf?, he] at hi
      cases hi

theorem Edits.grows (h : d.Edits changes d')
    (hgrows : ∀ entry ∈ changes,
      d.fresh ≤ entry.1 ∨ ∃ n, d.graph.node? entry.1 = some n ∧ n.Grows entry.2) :
    d.graph.Grows d'.graph := by
  refine ⟨h.registers, ?_⟩
  intro i n hn
  by_cases hi : i ∈ changes.map Prod.fst
  · obtain ⟨m, hm⟩ := Option.isSome_iff_exists.1 ((isSome_entryOf? i changes).2 hi)
    refine ⟨m, h.change hm, ?_⟩
    rcases hgrows (i, m) (entryOf?_mem hm) with hge | ⟨k, hk, hgrows⟩
    · exact (Nat.not_lt_of_le hge (Graph.lt_size_of_node? hn)).elim
    · cases hn.symm.trans hk
      exact hgrows
  · exact ⟨n, by rw [h.keep hi, hn], .refl n⟩

/-- A draft in which every node is finished apart from the loose ones, which wait for an edge in the
form in which they are listed. Suspensions are numbered in the order of their creation. -/
structure Sound (loose : List (NodeId × Node)) (d : Draft) : Prop where
  built : d.graph.WellBuilt (fun _ => True) (fun _ => True)
  gapless : ∀ i, i < d.fresh → ∃ n, d.graph.node? i = some n
  listed : ∀ i n, (i, n) ∈ loose → d.graph.node? i = some n
  distinct : (loose.map Prod.fst).Nodup
  fits : ∀ i n, d.graph.node? i = some n → n.Fits d.fresh i (i ∈ loose.map Prod.fst)
  ids : ∀ i j id id' next next', d.graph.node? i = some (.suspend id next) →
    d.graph.node? j = some (.suspend id' next') → i < j → id < id'

theorem Sound.lt_of_loose (hd : d.Sound loose) (hi : i ∈ loose.map Prod.fst) : i < d.fresh := by
  obtain ⟨⟨j, n⟩, hj, rfl⟩ := List.mem_map.1 hi
  exact Graph.lt_size_of_node? (hd.listed j n hj)

/-- A new suspension that comes last in every respect keeps the order of the ids. -/
theorem Sound.ids_edit (hd : d.Sound loose) (h : d.Edits changes d')
    (ids : ∀ i id next, (i, .suspend id next) ∈ changes →
      i = d.fresh ∧ d.graph.suspensionCount < id)
    (i j : NodeId) (id id' : Nat) (next next' : Option NodeId)
    (hi : d'.graph.node? i = some (.suspend id next))
    (hj : d'.graph.node? j = some (.suspend id' next')) (hij : i < j) : id < id' := by
  rcases h.node_cases hj with hj | ⟨_, hj⟩
  · obtain ⟨rfl, hid⟩ := ids j id' next' hj
    rcases h.node_cases hi with hi | ⟨_, hi⟩
    · rw [(ids i id next hi).1] at hij
      exact (Nat.lt_irrefl _ hij).elim
    · exact Nat.lt_of_le_of_lt (hd.built.id_range i id next hi).2 hid
  · rcases h.node_cases hi with hi | ⟨_, hi⟩
    · rw [(ids i id next hi).1] at hij
      exact (Nat.lt_asymm hij (Graph.lt_size_of_node? hj)).elim
    · exact hd.ids i j id id' next next' hi hj hij

/-- Edits of the first loose nodes and of new ones leave the other loose nodes alone. -/
theorem Sound.edit (old new : List (NodeId × Node)) (hd : d.Sound (old ++ rest))
    (h : d.Edits changes d')
    (built : d'.graph.WellBuilt (fun _ => True) (fun _ => True))
    (fits : ∀ entry ∈ changes,
      entry.2.Fits d'.fresh entry.1 (entry.1 ∈ (new ++ rest).map Prod.fst))
    (grows : ∀ entry ∈ changes,
      d.fresh ≤ entry.1 ∨ ∃ n, (entry.1, n) ∈ old ∧ n.Grows entry.2)
    (settled : ∀ i ∈ old.map Prod.fst, i ∈ changes.map Prod.fst ∨ i ∈ new.map Prod.fst)
    (listed : ∀ entry ∈ new, d'.graph.node? entry.1 = some entry.2)
    (range : ∀ i ∈ new.map Prod.fst, i ∈ old.map Prod.fst ∨ d.fresh ≤ i)
    (distinct : (new.map Prod.fst).Nodup)
    (ids : ∀ i id next, (i, .suspend id next) ∈ changes →
      i = d.fresh ∧ d.graph.suspensionCount < id) :
    d'.Sound (new ++ rest) ∧ d.graph.Grows d'.graph := by
  have hold := hd.distinct
  rw [List.map_append, List.nodup_append] at hold
  obtain ⟨_, hrest, hapart⟩ := hold
  have hlt {i : NodeId} (hi : i ∈ rest.map Prod.fst) : i < d.fresh := by
    apply hd.lt_of_loose
    rw [List.map_append]
    exact List.mem_append_right _ hi
  have hgrows : d.graph.Grows d'.graph := by
    apply h.grows
    intro entry hentry
    apply (grows entry hentry).imp_right
    rintro ⟨n, hn, hgrows⟩
    exact ⟨n, hd.listed _ n (List.mem_append_left _ hn), hgrows⟩
  refine ⟨?_, hgrows⟩
  constructor
  case built => exact built
  case gapless => exact fun i hi => h.gapless hd.gapless hi
  case listed =>
    intro i n hn
    rcases List.mem_append.1 hn with hn | hn
    · exact listed (i, n) hn
    · have hi : i ∈ rest.map Prod.fst := List.mem_map_of_mem hn
      rw [h.keep]
      · exact hd.listed i n (List.mem_append_right _ hn)
      · intro hmem
        obtain ⟨⟨j, m⟩, hm, rfl⟩ := List.mem_map.1 hmem
        rcases grows (j, m) hm with hge | ⟨k, hk, _⟩
        · exact Nat.not_lt_of_le hge (hlt hi)
        · exact hapart j (List.mem_map_of_mem hk) j hi rfl
  case distinct =>
    rw [List.map_append, List.nodup_append]
    refine ⟨distinct, hrest, ?_⟩
    intro i hi j hj hij
    subst hij
    rcases range i hi with hi | hge
    · exact hapart i hi i hj rfl
    · exact Nat.not_lt_of_le hge (hlt hj)
  case fits =>
    intro i n hn
    rcases h.node_cases hn with hn | ⟨hi, hn⟩
    · exact fits (i, n) hn
    · apply (hd.fits i n hn).mono h.fresh_le
      rw [List.map_append, List.map_append]
      intro hmem
      rcases List.mem_append.1 hmem with hmem | hmem
      · exact List.mem_append_left _ ((settled i hmem).resolve_left hi)
      · exact List.mem_append_right _ hmem
  case ids => exact hd.ids_edit h ids

theorem edits_push (d : Draft) (n : Node) : d.Edits [(d.fresh, n)] (d.push n) where
  registers := rfl
  fresh i := by
    rw [fresh_push, List.map_singleton, List.mem_singleton]
    exact Nat.lt_succ_iff_lt_or_eq
  node i := by
    rw [node?_push, entryOf?, entryOf?]
    by_cases hi : i = d.fresh
    · rw [if_pos hi, if_pos hi.symm]
      rfl
    · rw [if_neg hi, if_neg (Ne.symm hi)]
      rfl

theorem edits_modify (hi : d.graph.node? i = some n) (f : Node → Node) :
    d.Edits [(i, f n)] (d.modify i f) where
  registers := rfl
  fresh j := by
    have hlt : i < d.fresh := Graph.lt_size_of_node? hi
    rw [fresh_modify, List.map_singleton, List.mem_singleton]
    constructor
    · exact .inl
    · rintro (hj | rfl)
      · exact hj
      · exact hlt
  node j := by
    rw [node?_modify, entryOf?, entryOf?]
    by_cases hj : j = i
    · rw [if_pos hj, if_pos hj.symm, hj, hi]
      rfl
    · rw [if_neg hj, if_neg (Ne.symm hj)]
      rfl

theorem edits_startBlock (d : Draft) : d.Edits [(d.fresh, .block [] none)] d.startBlock :=
  have h := edits_push d (.block [] none)
  ⟨h.registers, h.fresh, h.node⟩

theorem Edits.trans (h : d.Edits changes d') (h' : d'.Edits changes' d'') :
    d.Edits (changes' ++ changes) d'' where
  registers := h'.registers.trans h.registers
  fresh i := by
    rw [h'.fresh, h.fresh, List.map_append, List.mem_append, or_assoc,
      or_comm (a := i ∈ changes'.map _)]
  node i := by
    rw [h'.node, h.node, entryOf?_append, Option.or_assoc]

theorem edits_startBranch (hc : d.graph.node? d.current = some (.block ss none)) (c : Expr) :
    d.Edits [(d.fresh + 1, .block [] none), (d.current, .block ss (some d.fresh)),
      (d.fresh, .branch c (some (d.fresh + 1)) none)] (d.startBranch c) := by
  have hlt : d.current < d.fresh := Graph.lt_size_of_node? hc
  have hpush := edits_push d (.branch c (some (d.fresh + 1)) none)
  have hcurrent : (d.push (.branch c (some (d.fresh + 1)) none)).graph.node? d.current =
      some (.block ss none) := by
    rw [hpush.keep, hc]
    simpa using Nat.ne_of_lt hlt
  have hconnect := hpush.trans (edits_modify hcurrent (Node.withNext (some d.fresh)))
  have hstart := hconnect.trans (edits_startBlock _)
  rwa [fresh_modify, fresh_push] at hstart

theorem edits_suspend (hc : d.graph.node? d.current = some (.block ss none)) :
    d.Edits [(d.fresh + 1, .block [] none), (d.current, .block ss (some d.fresh)),
      (d.fresh, .suspend (d.graph.suspensionCount + 1) (some (d.fresh + 1)))] d.suspend := by
  have hlt : d.current < d.fresh := Graph.lt_size_of_node? hc
  have hpush := edits_push d (.suspend (d.graph.suspensionCount + 1) (some (d.fresh + 1)))
  have hcurrent : (d.push (.suspend (d.graph.suspensionCount + 1)
      (some (d.fresh + 1)))).graph.node? d.current = some (.block ss none) := by
    rw [hpush.keep, hc]
    simpa using Nat.ne_of_lt hlt
  have hconnect := hpush.trans (edits_modify hcurrent (Node.withNext (some d.fresh)))
  have hstart := hconnect.trans (edits_startBlock _)
  rw [fresh_modify, fresh_push] at hstart
  exact ⟨hstart.registers, hstart.fresh, hstart.node⟩

theorem edits_startFalse (hb : d.graph.node? b = some (.branch c t none)) :
    d.Edits [(d.fresh, .block [] none), (b, .branch c t (some d.fresh))] (d.startFalse b) := by
  have hfalse := edits_modify hb (Node.withFalse (some d.fresh))
  have hstart := hfalse.trans (edits_startBlock _)
  rwa [fresh_modify] at hstart

/-- The end of the true arm of a branch leads to a node, and the rest starts on the false edge. -/
theorem edits_connect_startFalse (hc : d.graph.node? d.current = some (.block ss none))
    (hb : d.graph.node? b = some (.branch c t none)) (target : NodeId) :
    d.Edits [(d.fresh, .block [] none), (b, .branch c t (some d.fresh)),
      (d.current, .block ss (some target))] ((d.connect d.current target).startFalse b) := by
  have hconnect := edits_modify hc (Node.withNext (some target))
  have hbranch : (d.connect d.current target).graph.node? b = some (.branch c t none) := by
    rw [connect, hconnect.keep, hb]
    rintro hmem
    cases List.mem_singleton.1 hmem
    rw [hc] at hb
    cases hb
  have hfalse := hconnect.trans (edits_startFalse hbranch)
  rwa [fresh_modify] at hfalse

/-- Both arms of a branch lead to the block after it. -/
theorem edits_join (hc : d.graph.node? d.current = some (.block ss none))
    (he : d.graph.node? e = some (.block ts none)) (hne : e ≠ d.current) :
    d.Edits [(d.fresh, .block [] none), (d.current, .block ss (some d.fresh)),
      (e, .block ts (some d.fresh))]
      ((d.connect e d.fresh).connect d.current d.fresh).startBlock := by
  have hfirst := edits_modify he (Node.withNext (some d.fresh))
  have hcurrent : (d.connect e d.fresh).graph.node? d.current = some (.block ss none) := by
    rw [connect, hfirst.keep, hc]
    simpa using hne.symm
  have hsecond := hfirst.trans (edits_modify hcurrent (Node.withNext (some d.fresh)))
  have hstart := hsecond.trans (edits_startBlock _)
  rwa [fresh_modify, fresh_connect] at hstart

theorem node?_startBranch (hc : d.graph.node? d.current = some (.block ss none)) (c : Expr) :
    (d.startBranch c).graph.node? d.current = some (.block ss (some d.fresh)) := by
  have hlt : d.current < d.fresh := Graph.lt_size_of_node? hc
  apply (edits_startBranch hc c).change
  have hne : d.fresh + 1 ≠ d.current := Nat.ne_of_gt (Nat.lt_succ_of_lt hlt)
  simp [entryOf?, hne]

theorem node?_suspend (hc : d.graph.node? d.current = some (.block ss none)) :
    d.suspend.graph.node? d.current = some (.block ss (some d.fresh)) ∧
      d.suspend.graph.node? d.fresh =
        some (.suspend (d.graph.suspensionCount + 1) (some (d.fresh + 1))) := by
  have hlt : d.current < d.fresh := Graph.lt_size_of_node? hc
  have hne : d.fresh + 1 ≠ d.current := Nat.ne_of_gt (Nat.lt_succ_of_lt hlt)
  have hedits := edits_suspend hc
  exact ⟨hedits.change (by simp [entryOf?, hne]),
    hedits.change (by simp [entryOf?, Nat.ne_of_lt hlt])⟩

theorem node?_connect_startFalse (hc : d.graph.node? d.current = some (.block ss none))
    (hb : d.graph.node? b = some (.branch c t none)) (target : NodeId) :
    ((d.connect d.current target).startFalse b).graph.node? b =
        some (.branch c t (some d.fresh)) ∧
      ((d.connect d.current target).startFalse b).graph.node? d.current =
        some (.block ss (some target)) := by
  have hlt : d.current < d.fresh := Graph.lt_size_of_node? hc
  have hlt' : b < d.fresh := Graph.lt_size_of_node? hb
  have hne : b ≠ d.current := by
    rintro rfl
    rw [hc] at hb
    cases hb
  have hedits := edits_connect_startFalse hc hb target
  exact ⟨hedits.change (by simp [entryOf?, (Nat.ne_of_lt hlt').symm]),
    hedits.change (by simp [entryOf?, (Nat.ne_of_lt hlt).symm, hne])⟩

theorem node?_startFalse (hb : d.graph.node? b = some (.branch c t none)) :
    (d.startFalse b).graph.node? b = some (.branch c t (some d.fresh)) := by
  have hlt : b < d.fresh := Graph.lt_size_of_node? hb
  apply (edits_startFalse hb).change
  simp [entryOf?, (Nat.ne_of_lt hlt).symm]

theorem node?_join (hc : d.graph.node? d.current = some (.block ss none))
    (he : d.graph.node? e = some (.block ts none)) (hne : e ≠ d.current) :
    ((d.connect e d.fresh).connect d.current d.fresh).startBlock.graph.node? d.current =
        some (.block ss (some d.fresh)) ∧
      ((d.connect e d.fresh).connect d.current d.fresh).startBlock.graph.node? e =
        some (.block ts (some d.fresh)) := by
  have hlt : d.current < d.fresh := Graph.lt_size_of_node? hc
  have hlt' : e < d.fresh := Graph.lt_size_of_node? he
  have hedits := edits_join hc he hne
  exact ⟨hedits.change (by simp [entryOf?, (Nat.ne_of_lt hlt).symm]),
    hedits.change (by simp [entryOf?, (Nat.ne_of_lt hlt').symm, hne.symm])⟩

theorem Sound.startBranch (hd : d.Sound ((d.current, .block ss none) :: rest)) (c : Expr) :
    (d.startBranch c).Sound (((d.startBranch c).current, .block [] none) ::
        (d.fresh, .branch c (some (d.fresh + 1)) none) :: rest) ∧
      d.graph.Grows (d.startBranch c).graph := by
  rw [current_startBranch]
  have hc := hd.listed _ _ List.mem_cons_self
  have hlt : d.current < d.fresh := Graph.lt_size_of_node? hc
  have hedits := edits_startBranch hc c
  have hnext : d.fresh + 1 < (d.startBranch c).fresh := (hedits.fresh _).2 (.inr (by simp))
  refine hd.edit [_] [_, _] hedits (wellBuilt_startBranch hd.built trivial)
    ?_ ?_ (by simp) ?_ (by simp) (by simp) (by simp)
  · simp only [List.forall_mem_cons]
    exact ⟨.openBlock [] (by simp), .block ss ⟨Nat.zero_lt_of_lt hlt, Nat.lt_of_succ_lt hnext⟩,
      .openBranch c ⟨Nat.succ_pos _, hnext⟩ (by simp), nofun⟩
  · simp only [List.forall_mem_cons]
    exact ⟨.inl (Nat.le_succ _), .inr ⟨_, List.mem_cons_self, .seal ss _⟩, .inl (Nat.le_refl _),
      nofun⟩
  · have hne : d.current ≠ d.fresh := Nat.ne_of_lt hlt
    simp [hedits.node, entryOf?, hne]

theorem Sound.suspend (hd : d.Sound ((d.current, .block ss none) :: rest)) :
    d.suspend.Sound ((d.suspend.current, .block [] none) :: rest) ∧
      d.graph.Grows d.suspend.graph := by
  rw [current_suspend]
  have hc := hd.listed _ _ List.mem_cons_self
  have hlt : d.current < d.fresh := Graph.lt_size_of_node? hc
  have hedits := edits_suspend hc
  have hnext : d.fresh + 1 < d.suspend.fresh := (hedits.fresh _).2 (.inr (by simp))
  refine hd.edit [_] [_] hedits (wellBuilt_suspend hd.built)
    ?_ ?_ (by simp) ?_ (by simp) (by simp) (by simp +contextual)
  · simp only [List.forall_mem_cons]
    exact ⟨.openBlock [] (by simp), .block ss ⟨Nat.zero_lt_of_lt hlt, Nat.lt_of_succ_lt hnext⟩,
      .suspend _ ⟨Nat.succ_pos _, hnext⟩, nofun⟩
  · simp only [List.forall_mem_cons]
    exact ⟨.inl (Nat.le_succ _), .inr ⟨_, List.mem_cons_self, .seal ss _⟩, .inl (Nat.le_refl _),
      nofun⟩
  · simp [hedits.node, entryOf?]

theorem Sound.append (hd : d.Sound ((d.current, .block ss none) :: rest)) (s : Stmt Expr) :
    (d.append s).Sound ((d.current, .block (ss ++ [s]) none) :: rest) ∧
      d.graph.Grows (d.append s).graph := by
  have hc := hd.listed _ _ List.mem_cons_self
  have hedits : d.Edits [(d.current, .block (ss ++ [s]) none)] (d.append s) :=
    edits_modify hc (Node.append s)
  refine hd.edit [_] [_] hedits (wellBuilt_append hd.built trivial)
    ?_ ?_ (by simp) ?_ (by simp) (by simp) (by simp)
  · simp only [List.forall_mem_cons]
    exact ⟨.openBlock _ (by simp), nofun⟩
  · simp only [List.forall_mem_cons]
    exact ⟨.inr ⟨_, List.mem_cons_self, .block ss [s] none⟩, nofun⟩
  · simp [hedits.node, entryOf?]

theorem Sound.startFalse
    (hd : d.Sound ((d.current, .block ss none) :: (b, .branch c (some t) none) :: rest)) :
    (d.startFalse b).Sound (((d.startFalse b).current, .block [] none) ::
        (d.current, .block ss none) :: rest) ∧
      d.graph.Grows (d.startFalse b).graph := by
  rw [current_startFalse]
  have hc := hd.listed _ _ List.mem_cons_self
  have hb := hd.listed _ _ (List.mem_cons_of_mem _ List.mem_cons_self)
  have hlt : d.current < d.fresh := Graph.lt_size_of_node? hc
  have hedits := edits_startFalse hb
  have hfresh : d.fresh < (d.startFalse b).fresh := (hedits.fresh _).2 (.inr (by simp))
  have hne : d.current ≠ b := by
    rintro rfl
    rw [hc] at hb
    cases hb
  refine hd.edit [_, _] [_, _] hedits (wellBuilt_startFalse hd.built b)
    ?_ ?_ (by simp) ?_ (by simp) ?_ (by simp)
  · simp only [List.forall_mem_cons]
    exact ⟨.openBlock [] (by simp), .withFalse (hd.fits b _ hb |>.mono hedits.fresh_le id)
      ⟨Nat.zero_lt_of_lt hlt, hfresh⟩, nofun⟩
  · simp only [List.forall_mem_cons]
    exact ⟨.inl (Nat.le_refl _), .inr ⟨_, List.mem_cons_of_mem _ List.mem_cons_self, .branch ..⟩,
      nofun⟩
  · simp [hedits.node, entryOf?, hc, hne.symm, (Nat.ne_of_lt hlt).symm]
  · simpa using (Nat.ne_of_lt hlt).symm

theorem Sound.connect_startFalse
    (hd : d.Sound ((d.current, .block ss none) :: (b, .branch c (some t) none) :: rest))
    (htarget : 0 < target ∧ target ≤ d.fresh) :
    ((d.connect d.current target).startFalse b).Sound
        ((((d.connect d.current target).startFalse b).current, .block [] none) :: rest) ∧
      d.graph.Grows ((d.connect d.current target).startFalse b).graph := by
  rw [current_connect_startFalse]
  have hc := hd.listed _ _ List.mem_cons_self
  have hb := hd.listed _ _ (List.mem_cons_of_mem _ List.mem_cons_self)
  have hlt : d.current < d.fresh := Graph.lt_size_of_node? hc
  have hedits := edits_connect_startFalse hc hb target
  have hfresh : d.fresh < ((d.connect d.current target).startFalse b).fresh :=
    (hedits.fresh _).2 (.inr (by simp))
  refine hd.edit [_, _] [_] hedits
    (wellBuilt_startFalse (wellBuilt_connect hd.built _ _) b) ?_ ?_ (by simp) ?_ (by simp)
    (by simp) (by simp)
  · simp only [List.forall_mem_cons]
    exact ⟨.openBlock [] (by simp), .withFalse (hd.fits b _ hb |>.mono hedits.fresh_le id)
      ⟨Nat.zero_lt_of_lt hlt, hfresh⟩, .block ss ⟨htarget.1, Nat.lt_of_le_of_lt htarget.2 hfresh⟩,
      nofun⟩
  · simp only [List.forall_mem_cons]
    exact ⟨.inl (Nat.le_refl _), .inr ⟨_, List.mem_cons_of_mem _ List.mem_cons_self, .branch ..⟩,
      .inr ⟨_, List.mem_cons_self, .seal ss _⟩, nofun⟩
  · simp [hedits.node, entryOf?]

theorem Sound.join
    (hd : d.Sound ((d.current, .block ss none) :: (e, .block ts none) :: rest)) :
    ((d.connect e d.fresh).connect d.current d.fresh).startBlock.Sound
        ((((d.connect e d.fresh).connect d.current d.fresh).startBlock.current, .block [] none) ::
          rest) ∧
      d.graph.Grows ((d.connect e d.fresh).connect d.current d.fresh).startBlock.graph := by
  rw [current_join]
  have hc := hd.listed _ _ List.mem_cons_self
  have he := hd.listed _ _ (List.mem_cons_of_mem _ List.mem_cons_self)
  have hne : e ≠ d.current := by
    have hdistinct := (List.nodup_cons.1 hd.distinct).1
    rintro rfl
    exact hdistinct List.mem_cons_self
  have hlt : d.current < d.fresh := Graph.lt_size_of_node? hc
  have hedits := edits_join hc he hne
  have hfresh := (hedits.fresh d.fresh).2 (.inr (by simp))
  refine hd.edit [_, _] [_] hedits
    (wellBuilt_startBlock (wellBuilt_connect (wellBuilt_connect hd.built _ _) _ _))
    ?_ ?_ (by simp) ?_ (by simp) (by simp) (by simp)
  · simp only [List.forall_mem_cons]
    exact ⟨.openBlock [] (by simp), .block ss ⟨Nat.zero_lt_of_lt hlt, hfresh⟩,
      .block ts ⟨Nat.zero_lt_of_lt hlt, hfresh⟩, nofun⟩
  · simp only [List.forall_mem_cons]
    exact ⟨.inl (Nat.le_refl _), .inr ⟨_, List.mem_cons_self, .seal ss _⟩,
      .inr ⟨_, List.mem_cons_of_mem _ List.mem_cons_self, .seal ts _⟩, nofun⟩
  · simp [hedits.node, entryOf?]

theorem sound_start (registers : List (String × Nat)) :
    (start registers : Draft).Sound [((start registers : Draft).current, .block [] none)] where
  built := wellBuilt_start fun _ _ => ⟨.int 0, trivial⟩
  gapless i hi := by
    match i with
    | 0 => exact ⟨_, rfl⟩
    | 1 => exact ⟨_, rfl⟩
    | i + 2 => exact (Nat.not_lt_of_le (Nat.le_add_left 2 i) hi).elim
  listed i n hn := by
    cases List.mem_singleton.1 hn
    rfl
  distinct := List.pairwise_singleton _ _
  fits i n hn := by
    match i with
    | 0 =>
      cases hn
      refine ⟨fun _ => rfl, fun j hj => ?_, fun h => nomatch List.mem_singleton.1 h⟩
      cases List.mem_singleton.1 hj
      exact ⟨Nat.one_pos, Nat.one_lt_two⟩
    | 1 =>
      cases hn
      exact .openBlock [] List.mem_cons_self
    | i + 2 => cases hn
  ids i j id id' next next' hi := by
    match i with
    | 0 => cases hi
    | 1 => cases hi
    | i + 2 => cases hi

end Draft

/-- An accepted body declares registers and then loops. -/
theorem Graph.ofBody_eq_ok (h : Graph.ofBody body = .ok g) :
    ∃ preamble c ss registers d, body = preamble ++ [.loop c ss] ∧
      (c.eval .empty).map Value.truth = some true ∧
      preamble.map Stmt.declaration = registers.map .ok ∧
      (Draft.start registers).addStmt (.loop c ss) = .ok d ∧ g = d.graph := by
  unfold Graph.ofBody at h
  cases hlast : body.getLast? with
  | none =>
    rw [hlast] at h
    cases h
  | some last =>
    obtain ⟨preamble, rfl⟩ := List.getLast?_eq_some_iff.1 hlast
    rw [hlast, List.dropLast_concat] at h
    dsimp only at h
    split at h
    · cases h
    · next hloop =>
      obtain ⟨registers, hregisters, h⟩ := Except.bind_eq_ok h
      obtain ⟨d, hd, hgraph⟩ := Except.bind_eq_ok h
      cases hgraph
      cases last with
      | loop c ss =>
        refine ⟨preamble, c, ss, registers, d, rfl, ?_, Except.map_eq_of_mapM hregisters, hd, rfl⟩
        cases hc : (c.eval .empty).map Value.truth with
        | none => simp [Stmt.isInfiniteLoop, hc] at hloop
        | some b => simpa [Stmt.isInfiniteLoop, hc] using hloop
      | _ => exact (hloop rfl).elim

end Clockwork
