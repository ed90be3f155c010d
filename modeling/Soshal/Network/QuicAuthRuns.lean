import Soshal.Network.QuicAuth

/-! Runs of nodes and an attacker over the QUIC channels.

What is on its way over a connection is known by whose connection it is: an honest
peer sends its own events and beacons, the attacker sends nothing with a MAC that it
did not receive. The addresses that a node trusts are then those of honest peers, and
of each such address the one live connection has presented a beacon.
-/

set_option autoImplicit false

namespace Soshal.Network.QuicAuth

open Library.Encoding (hexDecode_hexEncode)
open Library.Text Library.Runs
open Beacon

section Runs

variable (hmacSha256 : List UInt8 → List UInt8 → List UInt8) (key : List UInt8)
variable {ν α ρ : Type} (owner : α → Party ν)

/-- What an arriving datagram can be, by whose connection it is on. -/
def Travels (w : World ν α ρ) (e : End ν α) (ev : MicroEvent) : Prop :=
  match owner e.remote with
  | .honest _ => ev.kind = registrationKind ∨ ev ∈ w.composed
  | .attacker => ev.kind = registrationKind → Unforged hmacSha256 key w.known (trim ev.payload)

def Opens (w : World ν α ρ) (o : Opening ν ρ) : Prop :=
  match o.opener with
  | .honest _ => o.request ∈ w.asked
  | .attacker => Unforged hmacSha256 key w.known (trimEnd o.line)

/-- Trust in the addresses of the connections. -/
structure Trust (w : World ν α ρ) : Prop where
  owned : ∀ n, ∀ addr ∈ (w.nodes n).authed, owner addr ≠ .attacker
  trusted : ∀ e ∈ w.ends, e.live = true → e.remote ∈ (w.nodes e.node).authed → e.presented = true
  alone : ∀ (k j : Nat) (e d : End ν α), w.ends[k]? = some e → w.ends[j]? = some d → e.live = true → d.live = true →
    e.node = d.node → e.remote = d.remote → owner e.remote ≠ .attacker → k = j

/-- The mate of an end is an end that has this node for its peer. -/
def Mated (w : World ν α ρ) : Prop :=
  ∀ e ∈ w.ends, ∀ j, e.mate = some j → ∃ d, w.ends[j]? = some d ∧ owner d.remote = .honest e.node

structure Traffic (w : World ν α ρ) : Prop where
  transit : ∀ sent ∈ w.transit, ∃ e, w.ends[sent.1]? = some e ∧ Travels hmacSha256 key owner w e sent.2
  openings : ∀ o ∈ w.openings, Opens hmacSha256 key w o

structure Inv (w : World ν α ρ) : Prop where
  trust : Trust owner w
  mated : Mated owner w
  traffic : Traffic hmacSha256 key owner w
  guarded : Guarded w

/-- What every step keeps of the ends and of what was said. -/
structure Grows (w after : World ν α ρ) : Prop where
  ends : ∀ (k : Nat) (e : End ν α), w.ends[k]? = some e → ∃ later, after.ends[k]? = some later ∧
    later.remote = e.remote ∧ later.node = e.node ∧ (e.presented = true → later.presented = true)
  known : ∀ text ∈ w.known, text ∈ after.known
  composed : ∀ ev ∈ w.composed, ev ∈ after.composed
  asked : ∀ request ∈ w.asked, request ∈ after.asked

variable {hmacSha256 key owner} {w after : World ν α ρ}

theorem Repeats.mono {known later : List String} (more : ∀ text ∈ known, text ∈ later) {text : String}
    (repeats : Repeats known text) : Repeats later text := by
  obtain ⟨f, split, heard, member, g, again, same⟩ := repeats
  exact ⟨f, split, heard, more heard member, g, again, same⟩

theorem Unforged.mono {known later : List String} (more : ∀ text ∈ known, text ∈ later) {text : String}
    (unforged : Unforged hmacSha256 key known text) : Unforged hmacSha256 key later text :=
  fun f split verified => (unforged f split verified).mono more

theorem Unforged.repeats {known : List String} {text : String} (unforged : Unforged hmacSha256 key known text)
    {seq : BeaconSeq} {now : UInt64} {pick : Nat}
    (accepted : (receive hmacSha256 key lanMagic 0 seq ⟨text, now, pick⟩).2 = true) : Repeats known text := by
  unfold receive at accepted
  cases parsed : parseBeacon hmacSha256 key lanMagic text 0 now with
  | none => simp [parsed] at accepted
  | some beacon =>
    obtain ⟨pk, port, nonce⟩ := beacon
    obtain ⟨_, f, split, passes, _, _⟩ := parseBeacon_eq_some.mp parsed
    exact unforged f split passes.mac

theorem Travels.grow (grows : Grows w after) {e later : End ν α} (remote : later.remote = e.remote) {ev : MicroEvent}
    (travels : Travels hmacSha256 key owner w e ev) : Travels hmacSha256 key owner after later ev := by
  unfold Travels at travels ⊢
  rw [remote]
  cases party : owner e.remote with
  | honest m =>
    rw [party] at travels
    exact travels.imp_right (grows.composed ev)
  | attacker =>
    rw [party] at travels
    exact fun kind => (travels kind).mono grows.known

theorem Opens.grow (grows : Grows w after) {o : Opening ν ρ} (opens : Opens hmacSha256 key w o) :
    Opens hmacSha256 key after o := by
  unfold Opens at opens ⊢
  cases party : o.opener with
  | honest m =>
    rw [party] at opens
    exact grows.asked o.request opens
  | attacker =>
    rw [party] at opens
    exact opens.mono grows.known

theorem Traffic.grow (traffic : Traffic hmacSha256 key owner w) (grows : Grows w after)
    (transit : ∀ sent ∈ after.transit, sent ∈ w.transit ∨
      ∃ e, after.ends[sent.1]? = some e ∧ Travels hmacSha256 key owner after e sent.2)
    (openings : ∀ o ∈ after.openings, o ∈ w.openings ∨ Opens hmacSha256 key after o) :
    Traffic hmacSha256 key owner after where
  transit sent member := by
    rcases transit sent member with old | new
    · obtain ⟨e, found, travels⟩ := traffic.transit sent old
      obtain ⟨later, there, remote, _⟩ := grows.ends sent.1 e found
      exact ⟨later, there, travels.grow grows remote⟩
    · exact new
  openings o member := by
    rcases openings o member with old | new
    · exact (traffic.openings o old).grow grows
    · exact new

theorem Guarded.grow (guarded : Guarded w) (grows : Grows w after)
    (forwarded : ∀ sent ∈ after.forwarded, sent ∈ w.forwarded ∨
      (∃ e, after.ends[sent.1]? = some e ∧ e.presented = true) ∧ sent.2 ∈ after.composed)
    (served : ∀ answer ∈ after.served, answer ∈ w.served ∨ answer.2 ∈ after.asked) : Guarded after where
  presented sent member := by
    rcases forwarded sent member with old | new
    · obtain ⟨e, found, presented⟩ := guarded.presented sent old
      obtain ⟨later, there, _, _, kept⟩ := grows.ends sent.1 e found
      exact ⟨later, there, kept presented⟩
    · exact new.1
  composed sent member := (forwarded sent member).elim
    (fun old => grows.composed _ (guarded.composed sent old)) fun new => new.2
  asked answer member := (served answer member).elim (fun old => grows.asked _ (guarded.asked answer old)) id

theorem Trust.shrink (trust : Trust owner w) (ends : after.ends = w.ends)
    (authed : ∀ n, ∀ addr ∈ (after.nodes n).authed, addr ∈ (w.nodes n).authed) : Trust owner after where
  owned n addr member := trust.owned n addr (authed n addr member)
  trusted e member live known := trust.trusted e (ends ▸ member) live (authed e.node e.remote known)
  alone := ends ▸ trust.alone

theorem Trust.append (trust : Trust owner w) {x : End ν α}
    (unused : owner x.remote ≠ .attacker → Unused w x.node x.remote)
    (ends : after.ends = w.ends ++ [x]) (authed : ∀ n, (after.nodes n).authed = (w.nodes n).authed) :
    Trust owner after where
  owned n addr member := trust.owned n addr (authed n ▸ member)
  trusted e member live known := by
    rw [authed] at known
    rw [ends] at member
    rcases List.mem_append.mp member with old | new
    · exact trust.trusted e old live known
    · obtain rfl := List.mem_singleton.mp new
      exact absurd known (unused (trust.owned _ _ known)).1
  alone k j e d atK atJ live liveD node remote honest := by
    rw [ends, List.getElem?_append] at atK atJ
    split at atK <;> split at atJ
    · exact trust.alone k j e d atK atJ live liveD node remote honest
    · obtain ⟨_, rfl⟩ := List.getElem?_eq_some_iff.mp atJ
      simp only [List.getElem_singleton] at node remote
      exact absurd remote ((unused (remote ▸ honest)).2 e (List.mem_of_getElem? atK) live node)
    · obtain ⟨_, rfl⟩ := List.getElem?_eq_some_iff.mp atK
      simp only [List.getElem_singleton] at node remote honest
      exact absurd remote.symm ((unused honest).2 d (List.mem_of_getElem? atJ) liveD node.symm)
    · have first := (List.getElem?_eq_some_iff.mp atK).1
      have second := (List.getElem?_eq_some_iff.mp atJ).1
      simp only [List.length_singleton] at first second
      omega

theorem Mated.append (mated : Mated owner w) {new : List (End ν α)} (ends : after.ends = w.ends ++ new)
    (fresh : ∀ e ∈ new, ∀ j, e.mate = some j → ∃ d, after.ends[j]? = some d ∧ owner d.remote = .honest e.node) :
    Mated owner after := by
  intro e member j mate
  rcases List.mem_append.mp (ends ▸ member) with old | new
  · obtain ⟨d, found, peer⟩ := mated e old j mate
    refine ⟨d, ?_, peer⟩
    rw [ends, List.getElem?_append_left (List.getElem?_eq_some_iff.mp found).1, found]
  · exact fresh e new j mate

theorem Grows.append {new : List (End ν α)} (ends : after.ends = w.ends ++ new) (known : after.known = w.known)
    (composed : after.composed = w.composed) (asked : after.asked = w.asked) : Grows w after where
  ends _ e found := by
    refine ⟨e, ?_, rfl, rfl, id⟩
    rw [ends, List.getElem?_append_left (List.getElem?_eq_some_iff.mp found).1, found]
  known _ member := known ▸ member
  composed _ member := composed ▸ member
  asked _ member := asked ▸ member

theorem Grows.same (ends : after.ends = w.ends) (known : ∀ text ∈ w.known, text ∈ after.known)
    (composed : ∀ ev ∈ w.composed, ev ∈ after.composed) (asked : ∀ request ∈ w.asked, request ∈ after.asked) :
    Grows w after where
  ends _ e found := ⟨e, ends ▸ found, rfl, rfl, id⟩
  known := known
  composed := composed
  asked := asked

structure Marks (f : End ν α → End ν α) : Prop where
  node : ∀ e, (f e).node = e.node
  remote : ∀ e, (f e).remote = e.remote
  mate : ∀ e, (f e).mate = e.mate
  live : ∀ e, (f e).live = true → e.live = true
  presented : ∀ e, e.presented = true → (f e).presented = true

section Marks

variable {f : End ν α → End ν α} {k : Nat}

theorem Marks.ite (marks : Marks f) (j : Nat) : Marks fun e => if k = j then f e else e := by
  by_cases here : k = j
  · simpa only [here, if_true] using marks
  · simp only [here, if_false]
    exact ⟨fun _ => rfl, fun _ => rfl, fun _ => rfl, fun _ => id, fun _ => id⟩

theorem getElem?_marked {ends : List (End ν α)} {j : Nat} {later : End ν α}
    (found : (ends.modify k f)[j]? = some later) :
    ∃ e, ends[j]? = some e ∧ later = (fun e => if k = j then f e else e) e := by
  rw [List.getElem?_modify] at found
  obtain ⟨e, there, rfl⟩ := Option.map_eq_some_iff.mp found
  refine ⟨e, there, ?_⟩
  split <;> rfl

theorem marked_getElem? {ends : List (End ν α)} {j : Nat} {e : End ν α} (found : ends[j]? = some e) :
    (ends.modify k f)[j]? = some ((fun e => if k = j then f e else e) e) := by
  rw [List.getElem?_modify, found]
  split <;> rfl

theorem Grows.modify (marks : Marks f) (ends : after.ends = w.ends.modify k f) (known : after.known = w.known)
    (composed : after.composed = w.composed) (asked : after.asked = w.asked) : Grows w after where
  ends j e found :=
    ⟨_, ends ▸ marked_getElem? found, (marks.ite j).remote e, (marks.ite j).node e, (marks.ite j).presented e⟩
  known _ member := known ▸ member
  composed _ member := composed ▸ member
  asked _ member := asked ▸ member

theorem Mated.modify (mated : Mated owner w) (marks : Marks f) (ends : after.ends = w.ends.modify k f) :
    Mated owner after := by
  intro later member j mate
  rw [ends] at member
  obtain ⟨i, found⟩ := List.mem_iff_getElem?.mp member
  obtain ⟨e, there, rfl⟩ := getElem?_marked found
  rw [(marks.ite i).mate] at mate
  obtain ⟨d, peer, honest⟩ := mated e (List.mem_of_getElem? there) j mate
  refine ⟨_, ends ▸ marked_getElem? peer, ?_⟩
  rw [(marks.ite j).remote, (marks.ite i).node, honest]

theorem Trust.modify (trust : Trust owner w) (marks : Marks f) (ends : after.ends = w.ends.modify k f)
    (authed : ∀ n, ∀ addr ∈ (after.nodes n).authed, addr ∈ (w.nodes n).authed ∨
      ∃ e, w.ends[k]? = some e ∧ e.live = true ∧ e.node = n ∧ e.remote = addr ∧ owner addr ≠ .attacker ∧
        (f e).presented = true) :
    Trust owner after where
  owned n addr member := by
    rcases authed n addr member with old | ⟨e, _, _, _, _, honest, _⟩
    · exact trust.owned n addr old
    · exact honest
  trusted later member live known := by
    obtain ⟨j, found⟩ := List.mem_iff_getElem?.mp (ends ▸ member)
    obtain ⟨d, there, rfl⟩ := getElem?_marked found
    rw [(marks.ite j).remote] at known
    rcases authed _ _ known with old | ⟨e, opened, liveE, node, remote, honest, presented⟩
    · rw [(marks.ite j).node] at old
      exact (marks.ite j).presented d
        (trust.trusted d (List.mem_of_getElem? there) ((marks.ite j).live d live) old)
    · rw [(marks.ite j).node] at node
      have same : k = j :=
        trust.alone k j e d opened there liveE ((marks.ite j).live d live) node remote (remote ▸ honest)
      subst same
      obtain rfl : e = d := Option.some.inj (opened.symm.trans there)
      simpa using presented
  alone i j e d atI atJ live liveD node remote honest := by
    obtain ⟨e, there, rfl⟩ := getElem?_marked (ends ▸ atI)
    obtain ⟨d, thereD, rfl⟩ := getElem?_marked (ends ▸ atJ)
    simp only [(marks.ite i).node, (marks.ite j).node, (marks.ite i).remote, (marks.ite j).remote] at node remote honest
    exact trust.alone i j e d there thereD ((marks.ite i).live e live) ((marks.ite j).live d liveD) node remote honest

end Marks

section

variable (inv : Inv hmacSha256 key owner w)
include inv

theorem Inv.still (ends : after.ends = w.ends)
    (authed : ∀ n, ∀ addr ∈ (after.nodes n).authed, addr ∈ (w.nodes n).authed)
    (known : ∀ text ∈ w.known, text ∈ after.known) (composed : ∀ ev ∈ w.composed, ev ∈ after.composed)
    (asked : ∀ request ∈ w.asked, request ∈ after.asked) (transit : ∀ sent ∈ after.transit, sent ∈ w.transit ∨
      ∃ e, after.ends[sent.1]? = some e ∧ Travels hmacSha256 key owner after e sent.2)
    (openings : ∀ o ∈ after.openings, o ∈ w.openings ∨ Opens hmacSha256 key after o)
    (forwarded : ∀ sent ∈ after.forwarded, sent ∈ w.forwarded ∨
      (∃ e, after.ends[sent.1]? = some e ∧ e.presented = true) ∧ sent.2 ∈ after.composed)
    (served : ∀ answer ∈ after.served, answer ∈ w.served ∨ answer.2 ∈ after.asked) :
    Inv hmacSha256 key owner after := by
  have grows : Grows w after := .same ends known composed asked
  refine ⟨inv.trust.shrink ends authed, ?_, inv.traffic.grow grows transit openings,
    inv.guarded.grow grows forwarded served⟩
  rw [Mated, ends]
  exact inv.mated

theorem Inv.carry {k : Nat} {e : End ν α} (found : w.ends[k]? = some e) {ev : MicroEvent}
    (travels : Travels hmacSha256 key owner w e ev) :
    Inv hmacSha256 key owner { w with transit := w.transit ++ [(k, ev)] } := by
  refine inv.still rfl (fun _ _ => id) (fun _ => id) (fun _ => id) (fun _ => id) (fun sent member => ?_)
    (fun _ => .inl) (fun _ => .inl) fun _ => .inl
  rcases List.mem_append.mp member with old | new
  · exact .inl old
  · obtain rfl := List.mem_singleton.mp new
    exact .inr ⟨e, found, travels⟩

theorem Inv.lose (i : Nat) : Inv hmacSha256 key owner { w with transit := w.transit.eraseIdx i } :=
  inv.still rfl (fun _ _ => id) (fun _ => id) (fun _ => id) (fun _ => id)
    (fun _ member => .inl (List.mem_of_mem_eraseIdx member)) (fun _ => .inl) (fun _ => .inl) fun _ => .inl

theorem Inv.opened {o : Opening ν ρ} (opens : Opens hmacSha256 key w o) :
    Inv hmacSha256 key owner { w with openings := w.openings ++ [o] } := by
  refine inv.still rfl (fun _ _ => id) (fun _ => id) (fun _ => id) (fun _ => id) (fun _ => .inl)
    (fun other member => ?_) (fun _ => .inl) fun _ => .inl
  rcases List.mem_append.mp member with old | new
  · exact .inl old
  · obtain rfl := List.mem_singleton.mp new
    exact .inr opens

theorem Inv.spoken (known : List String) (composed : List MicroEvent) (asked : List ρ) :
    Inv hmacSha256 key owner { w with
      known := w.known ++ known, composed := w.composed ++ composed, asked := w.asked ++ asked } :=
  inv.still rfl (fun _ _ => id) (fun _ => List.mem_append_left _) (fun _ => List.mem_append_left _)
    (fun _ => List.mem_append_left _) (fun _ => .inl) (fun _ => .inl) (fun _ => .inl) fun _ => .inl

theorem Inv.emit {k : Nat} {e : End ν α} (found : w.ends[k]? = some e) {ev : MicroEvent}
    (own : ev.kind = registrationKind ∨ ev ∈ w.composed) :
    Inv hmacSha256 key owner (w.emit k ev) := by
  unfold World.emit
  rw [found, Option.bind_some]
  cases mate : e.mate with
  | none => simpa using inv.spoken [trim ev.payload] [] []
  | some j =>
    obtain ⟨d, there, peer⟩ := inv.mated e (List.mem_of_getElem? found) j mate
    refine inv.carry there ?_
    simp only [Travels, peer]
    exact own

theorem Inv.send {k : Nat} {e : End ν α} (found : w.ends[k]? = some e) (ev : MicroEvent) :
    Inv hmacSha256 key owner { w.emit k ev with composed := w.composed ++ [ev] } := by
  have spoken : Inv hmacSha256 key owner { w with composed := w.composed ++ [ev] } := by
    simpa using inv.spoken [] [ev] []
  have own : ev.kind = registrationKind ∨ ev ∈ w.composed ++ [ev] :=
    .inr (List.mem_append_right _ (List.mem_singleton.mpr rfl))
  have sent := spoken.emit (k := k) found own
  have same : ({ w with composed := w.composed ++ [ev] } : World ν α ρ).emit k ev =
      { w.emit k ev with composed := w.composed ++ [ev] } := by
    unfold World.emit
    simp only [found]
    split <;> rfl
  exact same ▸ sent

theorem Inv.openStream (n : ν) (target : Party ν) (size : Nat) (line : String) (request : ρ) :
    Inv hmacSha256 key owner (match target with
      | .honest m => { w with
          asked := w.asked ++ [request], openings := w.openings ++ [⟨m, .honest n, size, line, request⟩] }
      | .attacker => { w with asked := w.asked ++ [request], known := w.known ++ [line] }) := by
  have spoken : Inv hmacSha256 key owner { w with asked := w.asked ++ [request] } := by
    simpa using inv.spoken [] [] [request]
  cases target with
  | attacker => simpa using spoken.spoken [line] [] []
  | honest m => exact spoken.opened (List.mem_append_right _ (List.mem_singleton.mpr rfl))

theorem Inv.close (k : Nat) :
    Inv hmacSha256 key owner { w with ends := w.ends.modify k fun e => { e with live := false } } := by
  have marks : Marks fun e : End ν α => { e with live := false } :=
    ⟨fun _ => rfl, fun _ => rfl, fun _ => rfl, fun _ live => Bool.noConfusion live, fun _ => id⟩
  have grows : Grows w { w with ends := w.ends.modify k fun e => { e with live := false } } :=
    .modify marks rfl rfl rfl rfl
  exact ⟨inv.trust.modify marks rfl fun _ _ => .inl, inv.mated.modify marks rfl,
    inv.traffic.grow grows (fun _ => .inl) fun _ => .inl, inv.guarded.grow grows (fun _ => .inl) fun _ => .inl⟩

end

section Steps

variable [DecidableEq ν]

theorem setNode_authed {n : ν} {node : Node α} (authed : ∀ addr ∈ node.authed, addr ∈ (w.nodes n).authed) (m : ν) :
    ∀ addr ∈ ((w.setNode n node).nodes m).authed, addr ∈ (w.nodes m).authed := by
  simp only [World.setNode, Function.update_apply]
  split
  · rename_i same
    exact same ▸ authed
  · exact fun addr member => member

theorem Inv.setNode (inv : Inv hmacSha256 key owner w) {n : ν} {node : Node α}
    (authed : ∀ addr ∈ node.authed, addr ∈ (w.nodes n).authed) : Inv hmacSha256 key owner (w.setNode n node) :=
  inv.still rfl (setNode_authed authed) (fun _ => id) (fun _ => id) (fun _ => id) (fun _ => .inl) (fun _ => .inl)
    (fun _ => .inl) fun _ => .inl

variable [DecidableEq α]

theorem attach_authed {n : ν} {remote : α} {mate : Option Nat} (m : ν) :
    ((w.attach n remote mate).nodes m).authed = (w.nodes m).authed := by
  simp only [World.attach, World.setNode, Function.update_apply, Node.insertConn]
  split
  · rename_i same
    rw [same]
  · rfl

theorem Grows.attach {n : ν} {remote : α} {mate : Option Nat} : Grows w (w.attach n remote mate) :=
  .append rfl rfl rfl rfl

theorem Trust.attach (trust : Trust owner w) {n : ν} {remote : α} {mate : Option Nat}
    (unused : owner remote ≠ .attacker → Unused w n remote) : Trust owner (w.attach n remote mate) :=
  trust.append (x := ⟨n, remote, mate, true, false⟩) unused rfl attach_authed

theorem Inv.attach (inv : Inv hmacSha256 key owner w) {n : ν} {remote : α} (attacker : owner remote = .attacker) :
    Inv hmacSha256 key owner (w.attach n remote none) := by
  refine ⟨inv.trust.attach fun honest => absurd attacker honest, inv.mated.append rfl ?_,
    inv.traffic.grow .attach (fun _ => .inl) fun _ => .inl, inv.guarded.grow .attach (fun _ => .inl) fun _ => .inl⟩
  intro e new j mate
  rw [List.mem_singleton.mp new] at mate
  cases mate

theorem Inv.connect (inv : Inv hmacSha256 key owner w) {opener acceptor : ν} {openerAddr acceptorAddr : α}
    (different : opener ≠ acceptor) (first : Unused w opener acceptorAddr) (second : Unused w acceptor openerAddr)
    (openerOwns : owner openerAddr = .honest opener) (acceptorOwns : owner acceptorAddr = .honest acceptor) :
    Inv hmacSha256 key owner ((w.attach opener acceptorAddr (some (w.ends.length + 1))).attach acceptor openerAddr
      (some w.ends.length)) := by
  let opened := w.attach opener acceptorAddr (some (w.ends.length + 1))
  have still : Unused opened acceptor openerAddr := by
    refine ⟨fun known => second.1 ((attach_authed (w := w) acceptor).symm ▸ known), fun e member live node => ?_⟩
    rcases List.mem_append.mp member with old | new
    · exact second.2 e old live node
    · obtain rfl := List.mem_singleton.mp new
      exact absurd node different
  have ends : (opened.attach acceptor openerAddr (some w.ends.length)).ends = w.ends ++
      [⟨opener, acceptorAddr, some (w.ends.length + 1), true, false⟩,
        ⟨acceptor, openerAddr, some w.ends.length, true, false⟩] := by
    simp [opened, World.attach]
  have grows : Grows w (opened.attach acceptor openerAddr (some w.ends.length)) := .append ends rfl rfl rfl
  refine ⟨(inv.trust.attach fun _ => first).attach fun _ => still, inv.mated.append ends ?_,
    inv.traffic.grow grows (fun _ => .inl) fun _ => .inl, inv.guarded.grow grows (fun _ => .inl) fun _ => .inl⟩
  intro e new j mate
  rcases List.mem_pair.mp new with rfl | rfl
  · obtain rfl := Option.some.inj mate
    exact ⟨⟨acceptor, openerAddr, some w.ends.length, true, false⟩, by simp [World.attach], openerOwns⟩
  · obtain rfl := Option.some.inj mate
    exact ⟨⟨opener, acceptorAddr, some (w.ends.length + 1), true, false⟩, by simp [World.attach], acceptorOwns⟩

/-! ## Datagrams -/

theorem readDatagram_cases {node after : Node α} {remote : α} {now : UInt64} {pick : Nat} {ev : MicroEvent}
    {verdict : Verdict} (read : readDatagram hmacSha256 key node remote now pick ev = (after, verdict)) :
    (verdict = .ignored ∧ after.authed = node.authed) ∨
      (verdict = .authenticated ∧ ev.kind = registrationKind ∧ after.authed = insert remote node.authed ∧
        (receive hmacSha256 key lanMagic 0 node.beaconSeq ⟨trim ev.payload, now, pick⟩).2 = true) ∨
      (verdict = .forwarded ∧ ev.kind ≠ registrationKind ∧ after = node ∧ remote ∈ node.authed) := by
  unfold readDatagram at read
  split at read
  · rename_i trusted
    split at read
    · rename_i kind
      cases read
      exact .inr (.inr ⟨rfl, kind, rfl, trusted⟩)
    · cases read
      exact .inl ⟨rfl, rfl⟩
  · split at read
    · rename_i kind
      cases received : receive hmacSha256 key lanMagic 0 node.beaconSeq ⟨trim ev.payload, now, pick⟩ with
      | mk seq accepted =>
        rw [received] at read
        cases accepted with
        | true =>
          cases read
          exact .inr (.inl ⟨rfl, kind, rfl, rfl⟩)
        | false =>
          cases read
          exact .inl ⟨rfl, rfl⟩
    · cases read
      exact .inl ⟨rfl, rfl⟩

omit [DecidableEq α] in
theorem Stale.refused {node : Node α} {now : UInt64} {pick : Nat} {text : String}
    (stale : Stale hmacSha256 key node now pick text) :
    (receive hmacSha256 key lanMagic 0 node.beaconSeq ⟨text, now, pick⟩).2 = false := by
  unfold receive
  cases parsed : parseBeacon hmacSha256 key lanMagic text 0 now with
  | none => rfl
  | some beacon =>
    obtain ⟨pk, port, nonce⟩ := beacon
    simp only [BeaconSeq.checkAndRecord]
    rcases stale pk port nonce parsed with buried | queued
    · rw [if_pos buried]
    · rw [if_pos queued, ite_self]

/-- The node trusts the address of an honest peer, whose connection has presented its beacon. -/
theorem Inv.authenticates (inv : Inv hmacSha256 key owner w) {i k : Nat} {e : End ν α} (found : w.ends[k]? = some e)
    (live : e.live = true) (honest : owner e.remote ≠ .attacker) {node : Node α}
    (authed : node.authed = insert e.remote (w.nodes e.node).authed) :
    Inv hmacSha256 key owner { World.setNode { w with transit := w.transit.eraseIdx i } e.node node with
      ends := w.ends.modify k fun e => { e with presented := true } } := by
  have marks : Marks fun e : End ν α => { e with presented := true } :=
    ⟨fun _ => rfl, fun _ => rfl, fun _ => rfl, fun _ => id, fun _ _ => rfl⟩
  refine ⟨inv.trust.modify marks rfl fun n addr member => ?_, inv.mated.modify marks rfl,
    inv.traffic.grow (.modify marks rfl rfl rfl rfl) (fun _ sent => .inl (List.mem_of_mem_eraseIdx sent)) fun _ => .inl,
    inv.guarded.grow (.modify marks rfl rfl rfl rfl) (fun _ => .inl) fun _ => .inl⟩
  simp only [World.setNode, Function.update_apply] at member
  split at member
  · rename_i here
    rw [authed, Finset.mem_insert] at member
    rcases member with rfl | old
    · exact .inr ⟨e, found, live, here.symm, rfl, honest, rfl⟩
    · exact .inl (here ▸ old)
  · exact .inl member

omit [DecidableEq α] in
/-- From a trusted address comes what an honest node composed, over a connection that has presented its beacon. -/
theorem Inv.forwards (inv : Inv hmacSha256 key owner w) {i k : Nat} {ev : MicroEvent} {e : End ν α}
    (found : w.ends[k]? = some e) (live : e.live = true) (trusted : e.remote ∈ (w.nodes e.node).authed)
    (kind : ev.kind ≠ registrationKind) (travels : Travels hmacSha256 key owner w e ev) :
    Inv hmacSha256 key owner { World.setNode { w with transit := w.transit.eraseIdx i } e.node (w.nodes e.node) with
      forwarded := w.forwarded ++ [(k, ev)] } := by
  have presented := inv.trust.trusted e (List.mem_of_getElem? found) live trusted
  have own : ev ∈ w.composed := by
    unfold Travels at travels
    cases party : owner e.remote with
    | honest m =>
      rw [party] at travels
      exact travels.resolve_left kind
    | attacker => exact absurd party (inv.trust.owned e.node e.remote trusted)
  refine inv.still rfl (setNode_authed fun _ => id) (fun _ => id) (fun _ => id) (fun _ => id)
    (fun _ sent => .inl (List.mem_of_mem_eraseIdx sent)) (fun _ => .inl) (fun sent member => ?_) fun _ => .inl
  rcases List.mem_append.mp member with old | new
  · exact .inl old
  · obtain rfl := List.mem_singleton.mp new
    exact .inr ⟨⟨e, found, presented⟩, own⟩

theorem Inv.deliver (inv : Inv hmacSha256 key owner w) {i : Nat} {now : UInt64} {pick : Nat} {k : Nat} {ev : MicroEvent}
    {e : End ν α} (arrives : w.transit[i]? = some (k, ev)) (found : w.ends[k]? = some e) (live : e.live = true)
    (careful : owner e.remote = .attacker → ev.kind = registrationKind → Repeats w.known (trim ev.payload) →
      Stale hmacSha256 key (w.nodes e.node) now pick (trim ev.payload)) {node : Node α} {verdict : Verdict}
    (read : readDatagram hmacSha256 key (w.nodes e.node) e.remote now pick ev = (node, verdict)) :
    Inv hmacSha256 key owner (match verdict with
      | .ignored => World.setNode { w with transit := w.transit.eraseIdx i } e.node node
      | .authenticated => { World.setNode { w with transit := w.transit.eraseIdx i } e.node node with
          ends := w.ends.modify k fun e => { e with presented := true } }
      | .forwarded => { World.setNode { w with transit := w.transit.eraseIdx i } e.node node with
          forwarded := w.forwarded ++ [(k, ev)] }) := by
  have travels : Travels hmacSha256 key owner w e ev := by
    obtain ⟨other, there, travels⟩ := inv.traffic.transit _ (List.mem_of_getElem? arrives)
    obtain rfl : other = e := Option.some.inj (there.symm.trans found)
    exact travels
  rcases readDatagram_cases read with ⟨rfl, authed⟩ | ⟨rfl, kind, authed, accepted⟩ | ⟨rfl, kind, rfl, trusted⟩
  · exact (inv.lose i).setNode fun addr member => authed ▸ member
  · refine inv.authenticates found live (fun attacker => ?_) authed
    rw [Travels, attacker] at travels
    rw [(careful attacker kind ((travels kind).repeats accepted)).refused] at accepted
    cases accepted
  · exact inv.forwards found live trusted kind travels

/-! ## Streams -/

omit [DecidableEq α] in
/-- A stream is accepted for its first line, which is short enough; no address is trusted for it. -/
theorem authStream_cases {node after : Node α} {now : UInt64} {pick : Nat} {size : Nat} {line : String}
    {accepted : Bool} (read : authStream hmacSha256 key node now pick size line = (after, accepted)) :
    after.authed = node.authed ∧ (accepted = true → size ≤ maxAuthLine ∧
      (receive hmacSha256 key lanMagic 0 node.beaconSeq ⟨trimEnd line, now, pick⟩).2 = true) := by
  unfold authStream at read
  split at read
  · cases read
    exact ⟨rfl, Bool.noConfusion⟩
  · rename_i short
    cases read
    exact ⟨rfl, fun accepted => ⟨Nat.le_of_not_lt short, accepted⟩⟩

omit [DecidableEq α] in
theorem Inv.serve (inv : Inv hmacSha256 key owner w) {i : Nat} {now : UInt64} {pick : Nat} {o : Opening ν ρ}
    (arrives : w.openings[i]? = some o)
    (careful : o.opener = .attacker → o.size ≤ maxAuthLine → Repeats w.known (trimEnd o.line) →
      Stale hmacSha256 key (w.nodes o.node) now pick (trimEnd o.line)) {node : Node α} {accepted : Bool}
    (read : authStream hmacSha256 key (w.nodes o.node) now pick o.size o.line = (node, accepted)) :
    Inv hmacSha256 key owner (match accepted with
      | true => { World.setNode { w with openings := w.openings.eraseIdx i } o.node node with
          served := w.served ++ [(o.node, o.request)] }
      | false => World.setNode { w with openings := w.openings.eraseIdx i } o.node node) := by
  obtain ⟨authed, accepts⟩ := authStream_cases read
  have fewer : ∀ other ∈ w.openings.eraseIdx i, other ∈ w.openings := fun _ => List.mem_of_mem_eraseIdx
  have trusted : ∀ addr ∈ node.authed, addr ∈ (w.nodes o.node).authed := fun addr => by rw [authed]; exact id
  have opens := inv.traffic.openings o (List.mem_of_getElem? arrives)
  cases accepted with
  | false =>
    exact inv.still rfl (setNode_authed trusted) (fun _ => id) (fun _ => id) (fun _ => id) (fun _ => .inl)
      (fun other member => .inl (fewer other member)) (fun _ => .inl) fun _ => .inl
  | true =>
    obtain ⟨short, received⟩ := accepts rfl
    have own : o.request ∈ w.asked := by
      unfold Opens at opens
      cases party : o.opener with
      | honest m =>
        rw [party] at opens
        exact opens
      | attacker =>
        rw [party] at opens
        rw [(careful party short (opens.repeats received)).refused] at received
        cases received
    refine inv.still rfl (setNode_authed trusted) (fun _ => id) (fun _ => id) (fun _ => id) (fun _ => .inl)
      (fun other member => .inl (fewer other member)) (fun _ => .inl) fun answer member => ?_
    rcases List.mem_append.mp member with old | new
    · exact .inl old
    · obtain rfl := List.mem_singleton.mp new
      exact .inr own

/-! ## Runs -/

variable {pubkeyOf : ν → String} {isPrivate : α → Bool}

theorem Inv.step (inv : Inv hmacSha256 key owner w) {move : Move ν α ρ} (craftable : Craftable hmacSha256 key w move)
    (careful : Careful hmacSha256 key owner w move) :
    Inv hmacSha256 key owner (step hmacSha256 key pubkeyOf owner isPrivate w move) := by
  cases move with
  | connect opener acceptor openerAddr acceptorAddr =>
    simp only [QuicAuth.step]
    split
    · rename_i permitted
      exact inv.connect careful.1 careful.2.1 careful.2.2 permitted.1 permitted.2.1
    · exact inv
  | accept n remote =>
    simp only [QuicAuth.step]
    split
    · rename_i permitted
      exact inv.attach permitted.1
    · exact inv
  | reach n remote =>
    simp only [QuicAuth.step]
    split
    · rename_i permitted
      exact inv.attach permitted.1
    · exact inv
  | close k => exact inv.close k
  | sweep n => exact inv.setNode fun addr member => (Finset.mem_filter.mp member).1
  | sendFailed n addr => exact inv.setNode fun _ => id
  | register k ts nonce =>
    simp only [QuicAuth.step]
    cases found : w.ends[k]? with
    | none => exact inv
    | some e => exact inv.emit found (.inl rfl)
  | send k ev =>
    simp only [QuicAuth.step]
    cases found : w.ends[k]? with
    | none => exact inv
    | some e => exact inv.send found ev
  | craft k ev =>
    simp only [QuicAuth.step]
    cases found : w.ends[k]? with
    | none => exact inv
    | some e =>
      dsimp only
      split
      · -- What the attacker sends is what it can craft.
        rename_i attacker
        refine inv.carry found ?_
        simp only [Travels, attacker]
        exact craftable
      · exact inv
  | deliver i now pick =>
    simp only [QuicAuth.step]
    cases arrives : w.transit[i]? with
    | none => exact inv
    | some sent =>
      obtain ⟨k, ev⟩ := sent
      dsimp only
      cases found : w.ends[k]? with
      | none => exact inv.lose i
      | some e =>
        dsimp only
        split
        · -- Whatever the verdict is, the node that has read is covered by one lemma.
          rename_i live
          cases read : readDatagram hmacSha256 key (w.nodes e.node) e.remote now pick ev with
          | mk node verdict =>
            have delivered := inv.deliver arrives found live (careful k ev e arrives found) read
            cases verdict <;> exact delivered
        · exact inv.lose i
  | lose i => exact inv.lose i
  | openStream n target ts nonce request =>
    have opened := inv.openStream n target (byteLen (beaconLine hmacSha256 key (pubkeyOf n) ts nonce))
      (beaconLine hmacSha256 key (pubkeyOf n) ts nonce) request
    cases target <;> exact opened
  | craftStream n size line request => exact inv.opened craftable
  | serve i now pick =>
    simp only [QuicAuth.step]
    cases arrives : w.openings[i]? with
    | none => exact inv
    | some o =>
      dsimp only
      cases read : authStream hmacSha256 key (w.nodes o.node) now pick o.size o.line with
      | mk node accepted =>
        have served := inv.serve arrives (careful o arrives) read
        cases accepted <;> exact served

def World.trusting (w : World ν α ρ) (i k : Nat) (e : End ν α) (seq : BeaconSeq) : World ν α ρ :=
  { World.setNode { w with transit := w.transit.eraseIdx i } e.node
      { w.nodes e.node with authed := insert e.remote (w.nodes e.node).authed, beaconSeq := seq } with
    ends := w.ends.modify k fun e => { e with presented := true } }

section

variable {i k : Nat} {now : UInt64} {pick : Nat} {ev : MicroEvent} {e : End ν α}
  (arrives : w.transit[i]? = some (k, ev)) (found : w.ends[k]? = some e) (live : e.live = true)
include arrives found live

theorem deliver_authenticates (untrusted : e.remote ∉ (w.nodes e.node).authed) (kind : ev.kind = registrationKind)
    {seq : BeaconSeq}
    (accepted : receive hmacSha256 key lanMagic 0 (w.nodes e.node).beaconSeq ⟨trim ev.payload, now, pick⟩ =
      (seq, true)) :
    step hmacSha256 key pubkeyOf owner isPrivate w (.deliver i now pick) = w.trusting i k e seq := by
  simp only [QuicAuth.step, World.trusting, arrives, found, live, readDatagram, untrusted, kind, accepted, if_true,
    if_false]

theorem deliver_forwards (trusted : e.remote ∈ (w.nodes e.node).authed) (kind : ev.kind ≠ registrationKind) :
    step hmacSha256 key pubkeyOf owner isPrivate w (.deliver i now pick) =
      { World.setNode { w with transit := w.transit.eraseIdx i } e.node (w.nodes e.node) with
        forwarded := w.forwarded ++ [(k, ev)] } := by
  simp only [QuicAuth.step, arrives, found, live, readDatagram, trusted, kind, if_true, ne_eq, not_false_eq_true]

end

omit [DecidableEq ν] [DecidableEq α] in
theorem Fresh.inv (fresh : Fresh w) : Inv hmacSha256 key owner w where
  trust :=
    { owned := fun n addr member => by simp [fresh.nodes] at member
      trusted := fun e member => by simp [fresh.ends] at member
      alone := fun k j e d atK => by simp [fresh.ends] at atK }
  mated := fun e member => by simp [fresh.ends] at member
  traffic :=
    { transit := fun sent member => by simp [fresh.transit] at member
      openings := fun o member => by simp [fresh.openings] at member }
  guarded :=
    { presented := fun sent member => by simp [fresh.forwarded] at member
      composed := fun sent member => by simp [fresh.forwarded] at member
      asked := fun answer member => by simp [fresh.served] at member }

end Steps

end Runs

/-- While different nodes connect from unused addresses, and the attacker's beacons are stale where they arrive, every
forwarded event came over a connection that presented a beacon, and nothing of the attacker's is forwarded or
served. -/
theorem guarded_throughout {ν α ρ : Type} [DecidableEq ν] [DecidableEq α]
    (hmacSha256 : List UInt8 → List UInt8 → List UInt8) (key : List UInt8) (pubkeyOf : ν → String)
    (owner : α → Party ν) (isPrivate : α → Bool) {start : World ν α ρ} (fresh : Fresh start) (moves : List (Move ν α ρ))
    (craftable : Throughout (step hmacSha256 key pubkeyOf owner isPrivate) (Craftable hmacSha256 key) start moves)
    (careful : Throughout (step hmacSha256 key pubkeyOf owner isPrivate) (Careful hmacSha256 key owner) start moves) :
    Always (step hmacSha256 key pubkeyOf owner isPrivate) Guarded start moves := by
  have both : Throughout (step hmacSha256 key pubkeyOf owner isPrivate)
      (fun w move => Craftable hmacSha256 key w move ∧ Careful hmacSha256 key owner w move) start moves := by
    rw [throughout_iff] at craftable careful ⊢
    exact fun done move rest split => ⟨craftable done move rest split, careful done move rest split⟩
  have always := always_of_throughout (P := Inv hmacSha256 key owner)
    (fun _ _ inv met => inv.step met.1 met.2) fresh.inv both
  exact always.imp fun _ inv => inv.guarded

/-! ## A relayed beacon, and a connection without one -/

section Line

variable {hmacSha256 : List UInt8 → List UInt8 → List UInt8} {key : List UInt8} {pk : String}

theorem beaconLine_genuine (valid : isPubkey pk = true) (ts : UInt64) (nonce : Nonce) :
    Genuine hmacSha256 key lanMagic ts (beaconLine hmacSha256 key pk ts nonce) pk 0 nonce :=
  ⟨valid, ts, _, by simp [absDiff], hexDecode_hexEncode _, rfl⟩

theorem trim_beaconLine (pk : String) (ts : UInt64) (nonce : Nonce) :
    trim (beaconLine hmacSha256 key pk ts nonce) = beaconLine hmacSha256 key pk ts nonce := by
  have visible : trimList (beaconLine hmacSha256 key pk ts nonce).toList =
      (beaconLine hmacSha256 key pk ts nonce).toList := by
    refine trimList_of_ends (fun c first => ?_) fun c last => ?_
    · have start : (beaconLine hmacSha256 key pk ts nonce).toList.head? = some 's' := by
        simp [beaconLine, beaconBody, lanMagic]
      rw [start] at first
      obtain rfl := Option.some.inj first
      decide
    · have tail : c ∈ (':' :: (beaconMac hmacSha256 key
          (beaconBody lanMagic pk 0 ts (hexEncode nonce.val))).toList).getLast? := by
        simpa [beaconLine, List.getLast?_append] using last
      rcases List.mem_cons.mp (List.mem_of_mem_getLast? tail) with rfl | digit
      · decide
      · exact (hexEncode_plain digit).2
  rw [trim, visible, String.ofList_toList]

theorem receive_beaconLine (valid : isPubkey pk = true) (ts : UInt64) (nonce : Nonce) (pick : Nat) :
    receive hmacSha256 key lanMagic 0 .new ⟨trim (beaconLine hmacSha256 key pk ts nonce), ts, pick⟩ =
      (BeaconSeq.new.record pk nonce, true) := by
  have parsed : parseBeacon hmacSha256 key lanMagic (beaconLine hmacSha256 key pk ts nonce) 0 ts =
      some (pk, 0, nonce) :=
    parseBeacon_of_genuine (by decide) (beaconLine_genuine valid ts nonce)
      (line_startsWith (f := sentFields lanMagic pk 0 ts nonce _) (startsWith_self lanMagic))
  rw [trim_beaconLine]
  simp only [receive, parsed]
  rfl

end Line

/-- Two nodes, one address for each of them and one for the attacker. -/
def ownerOf : Option Bool → Party Bool
  | some n => .honest n
  | none => .attacker

def nobody : World Bool (Option Bool) Unit where
  ends := []
  nodes _ := ⟨.empty, ∅, .new⟩
  transit := []
  openings := []
  known := []
  composed := []
  asked := []
  forwarded := []
  served := []

theorem fresh_nobody : Fresh nobody := ⟨rfl, fun _ => rfl, rfl, rfl, rfl, rfl⟩

def echo (_ body : List UInt8) : List UInt8 := body

def go : World Bool (Option Bool) Unit → Move Bool (Option Bool) Unit → World Bool (Option Bool) Unit :=
  step echo [] (fun _ => zeroPubkey) ownerOf fun _ => true

def registration : MicroEvent := ⟨registrationKind, beaconLine echo [] zeroPubkey 100 zeroNonce⟩

def like : MicroEvent := ⟨"like", ""⟩

/-- One node registers with the attacker, who registers with the other one. -/
def overhear : List (Move Bool (Option Bool) Unit) :=
  [.reach true none, .register 0 100 zeroNonce, .accept false none, .craft 1 registration]

def relay : List (Move Bool (Option Bool) Unit) :=
  overhear ++ [.deliver 0 100 0, .craft 1 like, .deliver 0 100 0]

def greet : List (Move Bool (Option Bool) Unit) :=
  [.connect true false (some true) (some false), .register 0 100 zeroNonce]

def greetAndSend : List (Move Bool (Option Bool) Unit) := greet ++ [.deliver 0 100 0, .send 0 like, .deliver 0 100 0]

/-- The first connection is closed, and its address is trusted on the second one. -/
def reconnect : List (Move Bool (Option Bool) Unit) :=
  greet ++ [.deliver 0 100 0, .close 0, .close 1, .connect true false (some true) (some false), .send 2 like,
    .deliver 0 100 0]

theorem registration_accepted :
    receive echo [] lanMagic 0 .new ⟨trim registration.payload, 100, 0⟩ =
      (BeaconSeq.new.record zeroPubkey zeroNonce, true) :=
  receive_beaconLine zeroPubkey_valid 100 zeroNonce 0

theorem overhear_delivered : go (run go nobody overhear) (.deliver 0 100 0) =
    (run go nobody overhear).trusting 0 1 ⟨false, none, none, true, false⟩
      (BeaconSeq.new.record zeroPubkey zeroNonce) :=
  deliver_authenticates rfl rfl rfl (by decide) rfl registration_accepted

theorem greet_delivered : go (run go nobody greet) (.deliver 0 100 0) =
    (run go nobody greet).trusting 0 1 ⟨false, some true, some 0, true, false⟩
      (BeaconSeq.new.record zeroPubkey zeroNonce) :=
  deliver_authenticates rfl rfl rfl (by decide) rfl registration_accepted

theorem greetAndSend_forwarded : (run go nobody greetAndSend).forwarded = [(1, like)] := by
  rw [greetAndSend, run_append, run_cons, greet_delivered, run_cons, run_cons, go,
    deliver_forwards (k := 1) (e := ⟨false, some true, some 0, true, true⟩) (rfl : _ = some (1, like)) rfl rfl
      (Finset.mem_insert_self _ _) (by decide)]
  rfl

theorem greetAndSend_craftable : Throughout go (Craftable echo []) nobody greetAndSend :=
  ⟨trivial, trivial, trivial, trivial, trivial, trivial⟩

theorem greetAndSend_careful : Throughout go (Careful echo [] ownerOf) nobody greetAndSend := by
  refine ⟨⟨by decide, ?_, ?_⟩, trivial, ?_, trivial, ?_, trivial⟩
  · exact ⟨Finset.notMem_empty _, fun e member => absurd member List.not_mem_nil⟩
  · exact ⟨Finset.notMem_empty _, fun e member => absurd member List.not_mem_nil⟩
  · intro k ev e arrives found attacker
    cases arrives
    cases found
    cases attacker
  · rw [show go (go nobody _) _ = run go nobody greet from rfl, greet_delivered]
    intro k ev e arrives found attacker
    cases arrives
    cases found
    cases attacker

theorem greeting_guarded :
    Always go Guarded nobody greetAndSend ∧ (run go nobody greetAndSend).forwarded = [(1, like)] :=
  ⟨guarded_throughout echo [] _ ownerOf _ fresh_nobody greetAndSend greetAndSend_craftable greetAndSend_careful,
    greetAndSend_forwarded⟩

theorem relay_end : (run go nobody relay).forwarded = [(1, like)] ∧ (run go nobody relay).composed = [] := by
  rw [relay, run_append, run_cons, overhear_delivered, run_cons, run_cons, go,
    deliver_forwards (k := 1) (e := ⟨false, none, none, true, true⟩) (rfl : _ = some (1, like)) rfl rfl
      (Finset.mem_insert_self _ _) (by decide)]
  exact ⟨rfl, rfl⟩

theorem relay_craftable : Throughout go (Craftable echo []) nobody relay := by
  refine ⟨trivial, trivial, trivial, ?_, trivial, ?_, trivial, trivial⟩
  · exact fun _ f split _ => ⟨f, split, trim registration.payload, List.mem_singleton.mpr rfl, f, split, rfl⟩
  · exact fun kind => absurd kind (by decide)

theorem reconnect_end : (run go nobody reconnect).forwarded = [(3, like)] ∧
    (run go nobody reconnect).ends[3]? = some ⟨false, some true, some 2, true, false⟩ := by
  rw [reconnect, run_append, run_cons, greet_delivered]
  iterate 5 rw [run_cons]
  rw [go, deliver_forwards (k := 3) (e := ⟨false, some true, some 2, true, false⟩) (rfl : _ = some (3, like)) rfl rfl
    (Finset.mem_insert_self _ _) (by decide)]
  exact ⟨rfl, rfl⟩

theorem reconnect_craftable : Throughout go (Craftable echo []) nobody reconnect :=
  ⟨trivial, trivial, trivial, trivial, trivial, trivial, trivial, trivial, trivial⟩

/-- An event of the attacker's is forwarded after a relayed beacon, and an event is forwarded from a connection that
presented none. -/
theorem relay_forwarded :
    Fresh nobody ∧
      (Throughout go (Craftable echo []) nobody relay ∧
        ∃ sent ∈ (run go nobody relay).forwarded, sent.2 ∉ (run go nobody relay).composed) ∧
      Throughout go (Craftable echo []) nobody reconnect ∧
        ∃ sent ∈ (run go nobody reconnect).forwarded,
          ∃ e, (run go nobody reconnect).ends[sent.1]? = some e ∧ e.presented = false := by
  refine ⟨fresh_nobody, ⟨relay_craftable, (1, like), ?_, ?_⟩, reconnect_craftable, (3, like), ?_, _, reconnect_end.2,
    rfl⟩
  · exact relay_end.1 ▸ List.mem_singleton.mpr rfl
  · exact relay_end.2 ▸ List.not_mem_nil
  · exact reconnect_end.1 ▸ List.mem_singleton.mpr rfl

end Soshal.Network.QuicAuth
