import Armour.Lang.Externals
import Armour.Lib.Wire

/-! # What external calls deliver

The image of a literal is what the other side of an external call should read: the literal
itself, a string for labels and regular expressions, and the tuple of its parts for a
structured literal.  `Exactly` says of one literal what is read and when; it composes along
lists and tuples (`exactly_bind`), so that each flat literal is looked at once.
-/

namespace Armour.Lang

open Armour.Lib

/-! ## Literals by their parts -/

namespace Literal

variable {FL FL' : Type}

mutual
/-- `p` holds of the literal and of every literal in it. -/
def Every (p : Literal FL → Prop) : Literal FL → Prop
  | flat l => p (flat l)
  | list ls => p (list ls) ∧ EveryIn p ls
  | tuple ls => p (tuple ls) ∧ EveryIn p ls

def EveryIn (p : Literal FL → Prop) : List (Literal FL) → Prop
  | [] => True
  | l :: ls => Every p l ∧ EveryIn p ls
end

mutual
/-- Replace the flat literals. -/
def bind (f : FL → Literal FL') : Literal FL → Literal FL'
  | flat l => f l
  | list ls => list (binds f ls)
  | tuple ls => tuple (binds f ls)

def binds (f : FL → Literal FL') : List (Literal FL) → List (Literal FL')
  | [] => []
  | l :: ls => bind f l :: binds f ls
end

theorem everyIn_iff {p : Literal FL → Prop} {ls : List (Literal FL)} :
    EveryIn p ls ↔ ∀ l ∈ ls, Every p l := by
  induction ls with
  | nil => simp [EveryIn]
  | cons l ls ih => simp [EveryIn, ih]

theorem binds_eq_map (f : FL → Literal FL') (ls : List (Literal FL)) :
    binds f ls = ls.map (bind f) := by
  induction ls with
  | nil => rfl
  | cons l ls ih => simp [binds, ih]

/-- Replacements agree when they agree on every flat literal that occurs. -/
theorem bind_eq_bind_iff {f g : FL → Literal FL'} {p : Literal FL → Prop}
    (flat : ∀ l, f l = g l ↔ p (.flat l)) (list : ∀ ls, p (.list ls))
    (tuple : ∀ ls, p (.tuple ls)) (l : Literal FL) : bind f l = bind g l ↔ Every p l := by
  have items : ∀ ls : List (Literal FL), (∀ l ∈ ls, bind f l = bind g l ↔ Every p l) →
      (binds f ls = binds g ls ↔ EveryIn p ls) := by
    intro ls h
    rw [binds_eq_map, binds_eq_map, List.map_inj_left, everyIn_iff]
    exact forall₂_congr h
  induction l using ind with
  | flat l => exact flat l
  | list ls ih => simp [bind, Every, list ls, items ls ih]
  | tuple ls ih => simp [bind, Every, tuple ls, items ls ih]

end Literal

/-! ## Building a list of items -/

section

variable {FL : Type} {build : Literal FL → Build}

/-- A literal is built as a value. -/
def Builds (build : Literal FL → Build) (l : Literal FL) (v : Value) : Prop :=
  (build l).run () = some (.ok v, ())

theorem fillFrom_ok {ts : List (Literal FL)} : ∀ {done : List Value} {ws : List Value},
    done.length + ts.length < 2 ^ 32 →
    ((fillFrom build done.length (done ++ List.replicate ts.length .empty) ts).run () =
        some (.ok ws, ()) ↔
      ∃ vs, ws = done ++ vs ∧ List.Forall₂ (Builds build) ts vs) := by
  induction ts with
  | nil =>
      intro done ws _
      simp [fillFrom, eq_comm]
  | cons t ts ih =>
      intro done ws h
      rw [List.length_cons] at h
      have hmod : done.length % 2 ^ 32 = done.length := Nat.mod_eq_of_lt (by omega)
      have hset : ∀ v, (done ++ List.replicate (ts.length + 1) Value.empty).set done.length v =
          (done ++ [v]) ++ List.replicate ts.length .empty := by
        intro v
        simp [List.replicate_succ]
      have hlt : done.length < (done ++ List.replicate (ts.length + 1) Value.empty).length := by
        simp
      rw [List.length_cons, fillFrom, hmod, if_pos hlt]
      constructor
      · intro hrun
        obtain ⟨v, ⟨⟩, hv, hrest⟩ := Comp.bind_eq_ok hrun
        have hnext : (done ++ [v]).length + ts.length < 2 ^ 32 := by
          rw [List.length_append, List.length_singleton]
          omega
        rw [hset, ← List.length_singleton (a := v), ← List.length_append] at hrest
        obtain ⟨vs, rfl, hvs⟩ := (ih hnext).1 hrest
        exact ⟨v :: vs, by simp, .cons hv hvs⟩
      · rintro ⟨vs, rfl, hvs⟩
        rcases hvs with _ | ⟨hv, hvs⟩
        rename_i v vs
        have hnext : (done ++ [v]).length + ts.length < 2 ^ 32 := by
          rw [List.length_append, List.length_singleton]
          omega
        rw [Comp.run_bind_ok hv, hset, ← List.length_singleton (a := v), ← List.length_append]
        exact (ih hnext).2 ⟨vs, by simp, hvs⟩

/-- More items than slots: the first one without a slot panics. -/
theorem fillFrom_overflow {ts : List (Literal FL)} : ∀ {i : Nat} {vs ws : List Value},
    vs.length < 2 ^ 32 → i ≤ vs.length → vs.length < i + ts.length →
    (fillFrom build i vs ts).run () ≠ some (.ok ws, ()) := by
  induction ts with
  | nil =>
      intro i vs ws _ hi hlt
      rw [List.length_nil] at hlt
      omega
  | cons t ts ih =>
      intro i vs ws hvs hi hlt hrun
      have hmod : i % 2 ^ 32 = i := Nat.mod_eq_of_lt (by omega)
      rw [List.length_cons] at hlt
      rw [fillFrom, hmod] at hrun
      by_cases hslot : i < vs.length
      · rw [if_pos hslot] at hrun
        obtain ⟨v, ⟨⟩, -, hrest⟩ := Comp.bind_eq_ok hrun
        refine ih ?_ ?_ ?_ hrest
        · rwa [List.length_set]
        · rw [List.length_set]
          omega
        · rw [List.length_set]
          omega
      · rw [if_neg hslot] at hrun
        cases hrun

theorem buildItems_ok {ts : List (Literal FL)} {vs : List Value} :
    (buildItems build ts).run () = some (.ok vs, ()) ↔
      ts.length < 2 ^ 32 ∧ List.Forall₂ (Builds build) ts vs := by
  by_cases h : ts.length < 2 ^ 32
  · rw [buildItems, Nat.mod_eq_of_lt h]
    have hfill : (fillFrom build 0 (List.replicate ts.length .empty) ts).run () =
        some (.ok vs, ()) ↔ List.Forall₂ (Builds build) ts vs := by
      have hstart : ([] : List Value).length + ts.length < 2 ^ 32 := by
        rwa [List.length_nil, Nat.zero_add]
      refine (fillFrom_ok hstart).trans ?_
      simp
    exact ⟨fun hr => ⟨h, hfill.1 hr⟩, fun hr => hfill.2 hr.2⟩
  · have hmod : ts.length % 2 ^ 32 < 2 ^ 32 := Nat.mod_lt _ (by omega)
    have hover : (buildItems build ts).run () ≠ some (.ok vs, ()) := by
      refine fillFrom_overflow ?_ (Nat.zero_le _) ?_
      · rwa [List.length_replicate]
      · rw [List.length_replicate]
        omega
    exact ⟨fun hr => absurd hr hover, fun hr => absurd hr.1 h⟩

end

/-! ## What is read -/

section

variable {FT FL FT' FL' : Type} [TFlatTyp FT] [TFlatLiteral FT FL] [TFlatTyp FT']
  [TFlatLiteral FT' FL'] {build : Literal FL → Build}

/-- Building answers, with a message that is read as `img`. -/
def Delivers (build : Literal FL → Build) (l : Literal FL) (img : Literal FL') : Prop :=
  ∃ v, Builds build l v ∧ readValue v.reader = .ok img

/-- `l` is delivered as `img` if `ok` holds, and otherwise not at all. -/
def Exactly (build : Literal FL → Build) (l : Literal FL) (ok : Prop) (img : Literal FL') :
    Prop :=
  ∀ img', Delivers build l img' ↔ ok ∧ img' = img

theorem readValues_ok {vs : List Value} : ∀ {ls : List (Literal FL')},
    readValues (Value.readers vs) = .ok ls ↔
      List.Forall₂ (fun v l => readValue (Value.reader v) = .ok l) vs ls := by
  induction vs with
  | nil =>
      intro ls
      simp [Value.readers, readValues, eq_comm]
  | cons v vs ih =>
      intro ls
      rw [Value.readers, readValues, List.forall₂_cons_left_iff]
      rcases hv : (readValue v.reader : Except String (Literal FL')) with e | l
      · simp [bind, Except.bind]
      · rcases hvs : (readValues (Value.readers vs) : Except String (List (Literal FL')))
          with e | ls'
        · simp [bind, Except.bind, ← ih, hvs]
        · simp [bind, Except.bind, ← ih, hvs, eq_comm (a := ls)]

/-- The items of a list or tuple, built and read. -/
theorem delivers_items {ts : List (Literal FL)} {imgs : List (Literal FL')} :
    (∃ vs, (buildItems build ts).run () = some (.ok vs, ()) ∧
        readValues (Value.readers vs) = .ok imgs) ↔
      ts.length < 2 ^ 32 ∧ List.Forall₂ (Delivers build) ts imgs := by
  simp only [buildItems_ok, readValues_ok, and_assoc]
  rw [exists_and_left]
  refine and_congr_right (fun hlen => ?_)
  clear hlen
  constructor
  · rintro ⟨vs, hb, hr⟩
    induction hb generalizing imgs with
    | nil =>
        cases hr
        exact .nil
    | cons hv _ ih =>
        rcases hr with _ | ⟨hl, hr⟩
        exact .cons ⟨_, hv, hl⟩ (ih hr)
  · intro h
    induction h with
    | nil => exact ⟨[], .nil, .nil⟩
    | cons hd _ ih =>
        obtain ⟨v, hv, hl⟩ := hd
        obtain ⟨vs, hb, hr⟩ := ih
        exact ⟨v :: vs, .cons hv hb, .cons hl hr⟩

/-- A builder that stores lists and tuples by their items. -/
structure Itemwise (build : Literal FL → Build) : Prop where
  list : ∀ ts, build (.list ts) = .list <$> buildItems build ts
  tuple : ∀ ts, build (.tuple ts) = .tuple <$> buildItems build ts

theorem map_ok {m : Comp String Unit (List Value)} {con : List Value → Value} {v : Value} :
    (con <$> m).run () = some (.ok v, ()) ↔ ∃ vs, m.run () = some (.ok vs, ()) ∧ v = con vs := by
  constructor
  · intro h
    obtain ⟨vs, ⟨⟩, hvs, hv⟩ := Comp.bind_eq_ok h
    cases hv
    exact ⟨vs, hvs, rfl⟩
  · rintro ⟨vs, hvs, rfl⟩
    exact Comp.run_bind_ok hvs

theorem delivers_con {l : Literal FL} {ts : List (Literal FL)} {con : List Value → Value}
    {wrap : List (Literal FL') → Literal FL'} {img : Literal FL'}
    (hbuild : build l = con <$> buildItems build ts)
    (hread : ∀ vs, readValue (con vs).reader = (readValues (Value.readers vs)).map wrap) :
    Delivers build l img ↔
      ts.length < 2 ^ 32 ∧ ∃ imgs, img = wrap imgs ∧ List.Forall₂ (Delivers build) ts imgs := by
  simp only [Delivers, Builds, hbuild, map_ok]
  constructor
  · rintro ⟨_, ⟨vs, hvs, rfl⟩, hr⟩
    rw [hread] at hr
    rcases hrs : (readValues (Value.readers vs) : Except String (List (Literal FL'))) with e | imgs
    · simp [hrs, Except.map] at hr
    · simp only [hrs, Except.map, Except.ok.injEq] at hr
      obtain ⟨hlen, hitems⟩ := delivers_items.1 ⟨vs, hvs, hrs⟩
      exact ⟨hlen, imgs, hr.symm, hitems⟩
  · rintro ⟨hlen, imgs, rfl, hitems⟩
    obtain ⟨vs, hvs, hrs⟩ := delivers_items.2 ⟨hlen, hitems⟩
    exact ⟨_, ⟨vs, hvs, rfl⟩, by rw [hread, hrs]; rfl⟩

/-! ## Composing -/

theorem Exactly.congr {l : Literal FL} {ok ok' : Prop} {img : Literal FL'}
    (h : Exactly build l ok img) (hok : ok ↔ ok') : Exactly build l ok' img :=
  fun img' => (h img').trans (and_congr_left' hok)

theorem Exactly.of_build_eq {l l' : Literal FL} {ok : Prop} {img : Literal FL'}
    (h' : Exactly build l' ok img) (h : build l = build l') : Exactly build l ok img := by
  intro img'
  rw [← h' img']
  simp only [Delivers, Builds, h]

/-- A literal that is stored at once. -/
theorem exactly_value {l : Literal FL} {v : Value} {img : Literal FL'} (h : build l = pure v)
    (hread : readValue v.reader = .ok img) : Exactly build l True img := by
  intro img'
  simp only [Delivers, Builds, h, true_and]
  constructor
  · rintro ⟨_, ⟨⟩, hr⟩
    exact Except.ok.inj (hr.symm.trans hread)
  · rintro rfl
    exact ⟨v, rfl, hread⟩

theorem exactly_items {ts : List (Literal FL)} {ps : List (Prop × Literal FL')}
    (h : List.Forall₂ (fun t p => Exactly build t p.1 p.2) ts ps) :
    ∀ imgs, List.Forall₂ (Delivers build) ts imgs ↔
      (∀ p ∈ ps, p.1) ∧ imgs = ps.map Prod.snd := by
  induction h with
  | nil => simp
  | cons ht _ ih =>
      intro imgs
      rw [List.forall₂_cons_left_iff]
      simp only [ht _, ih _, List.forall_mem_cons, List.map_cons]
      constructor
      · rintro ⟨img, imgs, ⟨hok, rfl⟩, ⟨hoks, rfl⟩, rfl⟩
        exact ⟨⟨hok, hoks⟩, rfl⟩
      · rintro ⟨⟨hok, hoks⟩, rfl⟩
        exact ⟨_, _, ⟨hok, rfl⟩, ⟨hoks, rfl⟩, rfl⟩

theorem exactly_con {l : Literal FL} {ts : List (Literal FL)} {con : List Value → Value}
    {wrap : List (Literal FL') → Literal FL'} {ps : List (Prop × Literal FL')}
    (hbuild : build l = con <$> buildItems build ts)
    (hread : ∀ vs, readValue (con vs).reader = (readValues (Value.readers vs)).map wrap)
    (h : List.Forall₂ (fun t p => Exactly build t p.1 p.2) ts ps) :
    Exactly build l (ts.length < 2 ^ 32 ∧ ∀ p ∈ ps, p.1) (wrap (ps.map Prod.snd)) := by
  intro img
  rw [delivers_con hbuild hread, and_assoc]
  simp only [exactly_items h]
  refine and_congr_right (fun _ => ?_)
  constructor
  · rintro ⟨_, rfl, hok, rfl⟩
    exact ⟨hok, rfl⟩
  · rintro ⟨hok, rfl⟩
    exact ⟨_, rfl, hok, rfl⟩

theorem exactly_list (hb : Itemwise build) {ts : List (Literal FL)}
    (ps : List (Prop × Literal FL'))
    (h : List.Forall₂ (fun t p => Exactly build t p.1 p.2) ts ps) :
    Exactly build (.list ts) (ts.length < 2 ^ 32 ∧ ∀ p ∈ ps, p.1) (.list (ps.map Prod.snd)) :=
  exactly_con (hb.list ts) (fun _ => by rw [Value.reader, readValue]) h

theorem exactly_tuple (hb : Itemwise build) {ts : List (Literal FL)}
    (ps : List (Prop × Literal FL'))
    (h : List.Forall₂ (fun t p => Exactly build t p.1 p.2) ts ps) :
    Exactly build (.tuple ts) (ts.length < 2 ^ 32 ∧ ∀ p ∈ ps, p.1) (.tuple (ps.map Prod.snd)) :=
  exactly_con (hb.tuple ts) (fun _ => by rw [Value.reader, readValue]) h

theorem items_map {α : Type} {f : α → Literal FL} {ok : α → Prop} {g : α → Literal FL'}
    {as : List α} (h : ∀ a ∈ as, Exactly build (f a) (ok a) (g a)) :
    List.Forall₂ (fun t p => Exactly build t p.1 p.2) (as.map f)
      (as.map (fun a => (ok a, g a))) := by
  rw [List.forall₂_map_left_iff, List.forall₂_map_right_iff]
  exact List.forall₂_same.2 h

theorem exactly_list_map (hb : Itemwise build) {α : Type} {f : α → Literal FL} {ok : α → Prop}
    {g : α → Literal FL'} (as : List α)
    (h : ∀ a ∈ as, Exactly build (f a) (ok a) (g a)) :
    Exactly build (.list (as.map f)) (as.length < 2 ^ 32 ∧ ∀ a ∈ as, ok a)
      (.list (as.map g)) := by
  have hlist := exactly_list hb _ (items_map h)
  rw [List.map_map] at hlist
  exact hlist.congr (by simp)

theorem exactly_tuple_map (hb : Itemwise build) {α : Type} {f : α → Literal FL} {ok : α → Prop}
    {g : α → Literal FL'} (as : List α)
    (h : ∀ a ∈ as, Exactly build (f a) (ok a) (g a)) :
    Exactly build (.tuple (as.map f)) (as.length < 2 ^ 32 ∧ ∀ a ∈ as, ok a)
      (.tuple (as.map g)) := by
  have htuple := exactly_tuple hb _ (items_map h)
  rw [List.map_map] at htuple
  exact htuple.congr (by simp)

/-- Every literal, from the flat ones: `node` says which lists and tuples can be stored. -/
theorem exactly_bind (hb : Itemwise build) {node : Literal FL → Prop} {f : FL → Literal FL'}
    (flat : ∀ l, Exactly build (.flat l) (node (.flat l)) (f l))
    (list : ∀ ls, node (.list ls) ↔ ls.length < 2 ^ 32)
    (tuple : ∀ ls, node (.tuple ls) ↔ ls.length < 2 ^ 32) (l : Literal FL) :
    Exactly build l (l.Every node) (l.bind f) := by
  induction l using Literal.ind with
  | flat l => exact flat l
  | list ls ih =>
      have h := exactly_list_map hb ls ih
      rw [List.map_id'] at h
      rw [Literal.bind, Literal.binds_eq_map]
      exact h.congr (by simp [Literal.Every, Literal.everyIn_iff, list])
  | tuple ls ih =>
      have h := exactly_tuple_map hb ls ih
      rw [List.map_id'] at h
      rw [Literal.bind, Literal.binds_eq_map]
      exact h.congr (by simp [Literal.Every, Literal.everyIn_iff, tuple])

end

/-! ## Images -/

section

variable {FT FL : Type} [TFlatTyp FT] [TFlatLiteral FT FL]

/-- The bytes of an address, four or sixteen, the most significant one first. -/
def IpAddr.bytes : IpAddr → List UInt8
  | .v4 v => octets v
  | .v6 v => (putLE 16 v.toNat).reverse

def IpAddr.image (a : IpAddr) : Literal FL :=
  .tuple (a.bytes.map (fun b => .int (Int64.ofNat b.toNat)))

/-- Hosts, addresses, port and labels. -/
def ID.image (i : ID) : Literal FL :=
  .tuple [.list (i.hosts.elems.map .str), .list (i.ips.elems.map IpAddr.image),
    .ofOption (i.port.map (fun p => .int (Int64.ofNat p.toNat))),
    .list (i.labels.elems.map (fun l => .str l.display))]

/-- Origin, destination and number. -/
def Connection.image (c : Connection) : Literal FL :=
  .tuple [c.fromId.image, c.toId.image, .int c.number]

/-- Every value of a header with its name. -/
def HttpHeaders.image (h : HttpHeaders) : Literal FL :=
  .list (h.entries.flatMap (fun p => p.2.map (fun v => .tuple [.str p.1, .data v])))

/-- All the fields of a request. -/
def HttpRequest.image (r : HttpRequest) : Literal FL :=
  .tuple [.str r.method.display, .str r.version.display, .str r.path, .str r.query,
    r.headers.image, r.connection.image]

/-- All the fields of a response. -/
def HttpResponse.image (r : HttpResponse) : Literal FL :=
  .tuple [.str r.version.display, .int (Int64.ofNat r.status.toNat), r.headers.image,
    .ofOption (r.reason.map .str), r.connection.image]

/-- The image of a flat literal. -/
def DPFlatLiteral.image (render : Nat → Doc → String) : DPFlatLiteral → Literal FL
  | .connection c => c.image
  | .httpRequest r => r.image
  | .httpResponse r => r.image
  | .id i => i.image
  | .ipAddr a => a.image
  | .label l => .str l.display
  | .regex r => .str (r.display render)
  | l => .dp l

/-! ## What arrives

Where the conversions drop something, a message that is not the image: an address arrives as
the octets of its IPv4 form, if it has one, and a response without its reason.
-/

def ID.arrives (i : ID) : Literal FL :=
  .tuple [i.hostsLit, .list (i.ips.elems.map IpAddr.octetsLit), i.portLit,
    .list (i.labels.elems.map (fun l => .str l.display))]

def Connection.arrives (c : Connection) : Literal FL :=
  .tuple [c.fromId.arrives, c.toId.arrives, .int c.number]

def HttpRequest.arrives (r : HttpRequest) : Literal FL :=
  .tuple [.str r.method.display, .str r.version.display, .str r.path, .str r.query,
    r.headers.headerPairs, r.connection.arrives]

def HttpResponse.arrives (r : HttpResponse) : Literal FL :=
  .tuple [.str r.version.display, .int (Int64.ofNat r.status.toNat), r.headers.headerPairs,
    r.connection.arrives]

def DPFlatLiteral.arrives (render : Nat → Doc → String) : DPFlatLiteral → Literal FL
  | .connection c => c.arrives
  | .httpRequest r => r.arrives
  | .httpResponse r => r.arrives
  | .id i => i.arrives
  | .ipAddr a => a.octetsLit
  | .label l => .str l.display
  | .regex r => .str (r.display render)
  | l => .dp l

end

/-- The image of a flat literal of the control plane; `parts` says what the parts of the
literals are that only the control plane has. -/
def CPFlatLiteral.image (render : Nat → Doc → String) (parts : CPFlatLiteral → List CPLiteral) :
    CPFlatLiteral → CPLiteral
  | .dp l => l.image render
  | l => .tuple (parts l)

def CPFlatLiteral.arrives (render : Nat → Doc → String)
    (parts : CPFlatLiteral → List CPLiteral) : CPFlatLiteral → CPLiteral
  | .dp l => l.arrives render
  | l => .tuple (parts l)

/-! ## What the conversions keep -/

def IpAddr.isV4 : IpAddr → Bool
  | .v4 _ => true
  | .v6 _ => false

def ID.Kept (i : ID) : Prop := ∀ a ∈ i.ips.elems, a.isV4 = true

def Connection.Kept (c : Connection) : Prop := c.fromId.Kept ∧ c.toId.Kept

/-- No response, and no IPv6 address. -/
def DPFlatLiteral.Kept : DPFlatLiteral → Prop
  | .connection c => c.Kept
  | .httpRequest r => r.connection.Kept
  | .httpResponse _ => False
  | .id i => i.Kept
  | .ipAddr a => a.isV4 = true
  | _ => True

/-- The literal itself, if it is flat, is kept. -/
def Literal.Kept {FT FL : Type} [TFlatTyp FT] [TFlatLiteral FT FL] (l : Literal FL) : Prop :=
  ∀ d, l.dp? = Option.some d → d.Kept

/-! ## Sizes

The length of a list or tuple is cast to 32 bits, also when a flat literal is converted to one.
-/

def ID.Fits (i : ID) : Prop :=
  i.hosts.elems.length < 2 ^ 32 ∧ i.ips.elems.length < 2 ^ 32 ∧ i.labels.elems.length < 2 ^ 32

def Connection.Fits (c : Connection) : Prop := c.fromId.Fits ∧ c.toId.Fits

/-- The number of pairs of a name and a value. -/
def HttpHeaders.Fits (h : HttpHeaders) : Prop := (h.entries.map (·.2.length)).sum < 2 ^ 32

def DPFlatLiteral.Fits : DPFlatLiteral → Prop
  | .connection c => c.Fits
  | .httpRequest r => r.headers.Fits ∧ r.connection.Fits
  | .httpResponse r => r.headers.Fits ∧ r.connection.Fits
  | .id i => i.Fits
  | _ => True

/-- What can be stored: lists and tuples that are not too long. -/
def DPLiteral.Storable : DPLiteral → Prop
  | .flat l => l.Fits
  | .list ls | .tuple ls => ls.length < 2 ^ 32

/-- In the control plane also: nothing that only the control plane has. -/
def CPLiteral.Storable : CPLiteral → Prop
  | .flat (.dp l) => l.Fits
  | .flat _ => False
  | .list ls | .tuple ls => ls.length < 2 ^ 32

/-! ## The builder of the data plane -/

namespace DPLiteral

variable (render : Nat → Doc → String)

theorem itemwise : Itemwise (buildValue render) where
  list ts := buildValue_eq render (.list ts)
  tuple ts := buildValue_eq render (.tuple ts)

section

variable {FT FL : Type} [TFlatTyp FT] [TFlatLiteral FT FL]

theorem exactly_str (s : String) :
    Exactly (buildValue render) (.str s) True (.str s : Literal FL) :=
  exactly_value (buildValue_eq render _) rfl

theorem exactly_int (i : Int64) :
    Exactly (buildValue render) (.int i) True (.int i : Literal FL) :=
  exactly_value (buildValue_eq render _) rfl

theorem exactly_data (d : Bytes) :
    Exactly (buildValue render) (.data d) True (.data d : Literal FL) :=
  exactly_value (buildValue_eq render _) rfl

theorem exactly_label (l : Label) :
    Exactly (buildValue render) (.label l) True (.str l.display : Literal FL) :=
  exactly_value (buildValue_eq render _) rfl

theorem exactly_ofOption {α : Type} {f : α → DPLiteral} {g : α → Literal FL}
    (h : ∀ a, Exactly (buildValue render) (f a) True (g a)) (o : Option α) :
    Exactly (buildValue render) (.ofOption (o.map f)) True (.ofOption (o.map g)) := by
  rcases o with _ | a
  · exact (exactly_tuple (itemwise render) [] .nil).congr (by simp)
  · exact (exactly_tuple (itemwise render) [(True, _)] (.cons (h a) .nil)).congr (by simp)

theorem exactly_ipAddr (a : IpAddr) :
    Exactly (buildValue render) (.ipAddr a) True (a.octetsLit : Literal FL) := by
  have octets : ∀ v, Exactly (buildValue render)
      (.tuple ((IpAddr.octets v).map (fun o => .int (Int64.ofNat o.toNat)))) True
      (.tuple ((IpAddr.octets v).map (fun o => .int (Int64.ofNat o.toNat))) : Literal FL) := by
    intro v
    refine (exactly_tuple_map (itemwise render) _ (fun o _ => exactly_int render _)).congr ?_
    simp [IpAddr.octets]
  refine Exactly.of_build_eq ?_ (buildValue_eq render _)
  show Exactly (buildValue render) a.octetsLit True a.octetsLit
  rcases a with v | v
  · exact octets v
  · rcases hv : IpAddr.toIpv4 v with _ | v'
    · simp only [IpAddr.octetsLit, hv]
      exact (exactly_tuple (itemwise render) [] .nil).congr (by simp)
    · simp only [IpAddr.octetsLit, hv]
      exact octets v'

theorem exactly_headerPairs (h : HttpHeaders) :
    Exactly (buildValue render) h.headerPairs h.Fits (h.headerPairs : Literal FL) := by
  have pair : ∀ p : String × Bytes, Exactly (buildValue render) (.tuple [.str p.1, .data p.2]) True
      (.tuple [.str p.1, .data p.2] : Literal FL) := by
    intro p
    refine (exactly_tuple (itemwise render) [(True, _), (True, _)]
      (.cons (exactly_str render p.1) (.cons (exactly_data render p.2) .nil))).congr ?_
    simp
  have pairs : ∀ {G T : Type} [TFlatTyp T] [TFlatLiteral T G],
      (h.headerPairs : Literal G) = .list
        ((h.entries.flatMap (fun p => p.2.map (fun v => (p.1, v)))).map
          (fun p => .tuple [.str p.1, .data p.2])) := by
    intro G T _ _
    simp [HttpHeaders.headerPairs, List.map_flatMap, Function.comp_def]
  rw [pairs, pairs]
  refine (exactly_list_map (itemwise render) _ (fun p _ => pair p)).congr ?_
  simp [HttpHeaders.Fits, List.length_flatMap]

theorem exactly_idTuple (i : ID) :
    Exactly (buildValue render) i.toLiteral i.Fits (i.arrives : Literal FL) := by
  have hosts : Exactly (buildValue render) i.hostsLit _ (i.hostsLit : Literal FL) :=
    exactly_list_map (itemwise render) _ (fun s _ => exactly_str render s)
  have ips : Exactly (buildValue render) i.ipsLit _
      (.list (i.ips.elems.map IpAddr.octetsLit) : Literal FL) :=
    exactly_list_map (itemwise render) _ (fun a _ => exactly_ipAddr render a)
  have port : Exactly (buildValue render) i.portLit True (i.portLit : Literal FL) :=
    exactly_ofOption render (fun p => exactly_int render _) i.port
  have labels : Exactly (buildValue render) i.labelsLit _
      (.list (i.labels.elems.map (fun l => .str l.display)) : Literal FL) :=
    exactly_list_map (itemwise render) _ (fun l _ => exactly_label render l)
  refine (exactly_tuple (itemwise render) [(_, _), (_, _), (_, _), (_, _)]
    (.cons hosts (.cons ips (.cons port (.cons labels .nil))))).congr ?_
  simp [ID.Fits]

theorem exactly_connectionTuple (c : Connection) :
    Exactly (buildValue render) c.toLiteral c.Fits (c.arrives : Literal FL) := by
  refine (exactly_tuple (itemwise render) [(c.fromId.Fits, _), (c.toId.Fits, _), (True, _)]
    (.cons (exactly_idTuple render c.fromId) (.cons (exactly_idTuple render c.toId)
      (.cons (exactly_int render c.number) .nil)))).congr ?_
  simp [Connection.Fits]

theorem exactly_requestTuple (r : HttpRequest) :
    Exactly (buildValue render) r.toLiteral (r.headers.Fits ∧ r.connection.Fits)
      (r.arrives : Literal FL) := by
  refine (exactly_tuple (itemwise render)
    [(True, _), (True, _), (True, _), (True, _), (r.headers.Fits, _), (r.connection.Fits, _)]
    (.cons (exactly_str render _) (.cons (exactly_str render _) (.cons (exactly_str render _)
      (.cons (exactly_str render _) (.cons (exactly_headerPairs render r.headers)
        (.cons (exactly_connectionTuple render r.connection) .nil))))))).congr ?_
  simp

theorem exactly_responseTuple (r : HttpResponse) :
    Exactly (buildValue render) r.toLiteral (r.headers.Fits ∧ r.connection.Fits)
      (r.arrives : Literal FL) := by
  refine (exactly_tuple (itemwise render)
    [(True, _), (True, _), (r.headers.Fits, _), (r.connection.Fits, _)]
    (.cons (exactly_str render _) (.cons (exactly_int render _)
      (.cons (exactly_headerPairs render r.headers)
        (.cons (exactly_connectionTuple render r.connection) .nil))))).congr ?_
  simp

/-- Every flat literal: the structured ones through the tuple they are converted to. -/
theorem exactly_flat (l : DPFlatLiteral) :
    Exactly (buildValue render) (.flat l) l.Fits (l.arrives render : Literal FL) := by
  cases l with
  | connection c =>
      exact (exactly_connectionTuple render c).of_build_eq (buildValue_eq render _)
  | httpRequest r => exact (exactly_requestTuple render r).of_build_eq (buildValue_eq render _)
  | httpResponse r => exact (exactly_responseTuple render r).of_build_eq (buildValue_eq render _)
  | id i => exact (exactly_idTuple render i).of_build_eq (buildValue_eq render _)
  | ipAddr a => exact exactly_ipAddr render a
  | _ => exact exactly_value (buildValue_eq render _) rfl

theorem exactly_arrives (l : DPLiteral) : Exactly (buildValue render) l (l.Every Storable)
    (l.bind (DPFlatLiteral.arrives render) : Literal FL) :=
  exactly_bind (itemwise render) (exactly_flat render) (fun _ => Iff.rfl) (fun _ => Iff.rfl) l

end

end DPLiteral

/-! ## The builder of the control plane -/

namespace CPLiteral

variable (render : Nat → Doc → String)

theorem itemwise : Itemwise (buildValue render) where
  list ts := buildValue_eq render (.list ts)
  tuple ts := buildValue_eq render (.tuple ts)

/-- A literal that is converted to itself. -/
theorem buildValue_diverge {l : CPLiteral}
    (h : ∀ build, Externals.buildStep render build (.inr l) = build (.inr l)) :
    buildValue render l = Comp.diverge :=
  Comp.fix_eq_diverge h

theorem exactly_diverge {l img : CPLiteral} (h : buildValue render l = Comp.diverge) :
    Exactly (buildValue render) l False img := by
  intro img'
  simp only [Delivers, Builds, h, false_and, iff_false]
  rintro ⟨v, ⟨⟩, _⟩

theorem exactly_flat (parts : CPFlatLiteral → List CPLiteral) (l : CPFlatLiteral) :
    Exactly (buildValue render) (.flat l) (Storable (.flat l)) (l.arrives render parts) := by
  cases l with
  | dp l =>
      intro img
      have h : buildValue render (.flat (.dp l)) = DPLiteral.buildValue render (.flat l) :=
        buildValue_eq render _
      simp only [Delivers, Builds, h]
      exact DPLiteral.exactly_flat render l img
  | _ => exact exactly_diverge render (buildValue_diverge render (fun _ => rfl))

theorem exactly_arrives (parts : CPFlatLiteral → List CPLiteral) (l : CPLiteral) :
    Exactly (buildValue render) l (l.Every Storable)
      (l.bind (CPFlatLiteral.arrives render parts)) :=
  exactly_bind (itemwise render) (exactly_flat render parts) (fun _ => Iff.rfl)
    (fun _ => Iff.rfl) l

end CPLiteral

/-! ## Both planes -/

section

variable {FT FL : Type} [TFlatTyp FT] [TFlatLiteral FT FL]

/-- An IPv6 address arrives as fewer numbers than it has bytes. -/
theorem IpAddr.image_eq_iff (a : IpAddr) :
    (a.image : Literal FL) = a.octetsLit ↔ a.isV4 = true := by
  cases a with
  | v4 v => simp [image, octetsLit, bytes, isV4]
  | v6 v =>
      refine iff_of_false (fun h => ?_) Bool.false_ne_true
      have hlen : ∀ ls : List (Literal FL), octetsLit (.v6 v) = .tuple ls → ls.length ≤ 4 := by
        intro ls hls
        cases hv : toIpv4 v with
        | none =>
            simp only [octetsLit, hv] at hls
            cases hls
            exact Nat.zero_le 4
        | some v' =>
            simp only [octetsLit, hv] at hls
            cases hls
            simp [octets]
      have hbytes := hlen _ h.symm
      rw [List.length_map, bytes, List.length_reverse, putLE_length] at hbytes
      omega

theorem ID.image_eq_iff (i : ID) : (i.image : Literal FL) = i.arrives ↔ i.Kept := by
  have hips : i.ips.elems.map (IpAddr.image : IpAddr → Literal FL) = i.ips.elems.map IpAddr.octetsLit ↔
      i.Kept := by
    rw [List.map_inj_left]
    exact forall₂_congr (fun a _ => a.image_eq_iff)
  simp [image, arrives, hostsLit, portLit, hips]

theorem Connection.image_eq_iff (c : Connection) :
    (c.image : Literal FL) = c.arrives ↔ c.Kept := by
  simp [image, arrives, ID.image_eq_iff, Kept]

theorem DPFlatLiteral.image_eq_iff (render : Nat → Doc → String) (l : DPFlatLiteral) :
    (l.image render : Literal FL) = l.arrives render ↔ l.Kept := by
  cases l with
  | connection c => exact c.image_eq_iff
  | httpRequest r =>
      simp [image, arrives, HttpRequest.image, HttpRequest.arrives, HttpHeaders.image,
        HttpHeaders.headerPairs, Connection.image_eq_iff, Kept]
  | httpResponse r =>
      simp [image, arrives, HttpResponse.image, HttpResponse.arrives, Kept]
  | id i => exact i.image_eq_iff
  | ipAddr a => exact a.image_eq_iff
  | _ => exact iff_of_true rfl trivial

end

/-- What an external reads when `l` is passed to it is the image of `l`. -/
def DPLiteral.Marshals (render : Nat → Doc → String) (l : DPLiteral) : Prop :=
  Delivers (DPLiteral.buildValue render) l (l.bind (DPFlatLiteral.image render) : DPLiteral)

def CPLiteral.Marshals (render : Nat → Doc → String) (parts : CPFlatLiteral → List CPLiteral)
    (l : CPLiteral) : Prop :=
  Delivers (CPLiteral.buildValue render) l (l.bind (CPFlatLiteral.image render parts))

theorem DPLiteral.marshals (render : Nat → Doc → String) (l : DPLiteral) :
    l.Marshals render ↔ l.Every Storable ∧ l.Every Literal.Kept := by
  rw [Marshals, exactly_arrives render l]
  refine and_congr_right (fun _ => Literal.bind_eq_bind_iff (fun f => ?_) ?_ ?_ l)
  · rw [DPFlatLiteral.image_eq_iff]
    exact ⟨fun h d hd => Option.some.inj hd ▸ h, fun h => h f rfl⟩
  · exact fun _ _ h => nomatch h
  · exact fun _ _ h => nomatch h

theorem CPLiteral.marshals (render : Nat → Doc → String) (parts : CPFlatLiteral → List CPLiteral)
    (l : CPLiteral) :
    l.Marshals render parts ↔ l.Every Storable ∧ l.Every Literal.Kept := by
  rw [Marshals, exactly_arrives render parts l]
  refine and_congr_right (fun _ => Literal.bind_eq_bind_iff (fun f => ?_) ?_ ?_ l)
  · cases f with
    | dp f =>
        refine (DPFlatLiteral.image_eq_iff render f).trans ?_
        exact ⟨fun h d hd => Option.some.inj hd ▸ h, fun h => h f rfl⟩
    | _ => exact iff_of_true rfl (fun _ h => nomatch h)
  · exact fun _ _ h => nomatch h
  · exact fun _ _ h => nomatch h

/-- An argument of an external call is delivered as its image exactly when it holds nothing
that only the control plane has, no response, no IPv6 address, and no list that is too long;
responses and addresses are delivered too, as far as the conversions keep them. -/
theorem marshals_iff (render : Nat → Doc → String) (parts : CPFlatLiteral → List CPLiteral) :
    (∀ l : DPLiteral,
      (l.Marshals render ↔ l.Every DPLiteral.Storable ∧ l.Every Literal.Kept) ∧
      (Delivers (DPLiteral.buildValue render) l
          (l.bind (DPFlatLiteral.arrives render) : DPLiteral) ↔
        l.Every DPLiteral.Storable)) ∧
    ∀ l : CPLiteral,
      (l.Marshals render parts ↔ l.Every CPLiteral.Storable ∧ l.Every Literal.Kept) ∧
      (Delivers (CPLiteral.buildValue render) l
          (l.bind (CPFlatLiteral.arrives render parts)) ↔
        l.Every CPLiteral.Storable) := by
  refine ⟨fun l => ⟨l.marshals render, ?_⟩, fun l => ⟨l.marshals render parts, ?_⟩⟩
  · rw [DPLiteral.exactly_arrives render l]
    exact and_iff_left rfl
  · rw [CPLiteral.exactly_arrives render parts l]
    exact and_iff_left rfl

/-- The address `::1` arrives as the one of `0.0.0.1`. -/
example : (IpAddr.octetsLit (.v6 1) : DPLiteral) = IpAddr.image (.v4 1) := rfl

/-- On-boarding data passed to an external: the builder calls itself for ever. -/
theorem onboardingData_diverges :
    ∃ d : OnboardingData, ∀ render,
      (CPLiteral.buildValue render (.ofOnboardingData d)).run () = none := by
  refine ⟨⟨⟨[.str "host"]⟩, ⟨[.str "service"]⟩, "", none, ∅, ∅⟩, fun render => ?_⟩
  rw [CPLiteral.buildValue_diverge render (fun _ => rfl)]
  rfl

end Armour.Lang
