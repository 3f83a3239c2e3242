import Sperm.Sasuke.Rpc

/-!
# A call and its answer (`sasuke/rpc.cc`, `sasuke/proto_rpc.h`)

A request travels as its method and its framed bytes. The call back looks the method up, parses the
request, runs the service and leaves the framed response.

* `dispatcher`: the map after a sequence of `registerService` calls.
* `serializeRequest`, `deserializeResponse`: the two ends of the client.
* `Framed`: a `serialize` and a `deserialize` that are an exact pair in the framed format;
  `framed_protobuf`.
* `handle_of_registered`, `handle_of_not_registered`: what `handle` makes of the bytes of a request.
* **`handle_serializeRequest`**: a request reaches the service registered last under its method
  unchanged and the response comes back unchanged; an unknown method has no effect.
-/

namespace Sperm.Sasuke

variable {σ : Type}

/-- The map after the calls `registerService(method, service)` of `regs`, in order. -/
def dispatcher (regs : List (List UInt8 × Service σ)) : Dispatcher σ :=
  regs.foldl (fun d p => d.registerService p.1 p.2) fun _ => none

/-- `serialize_request(request, bytes)` of a request with `method()` and `serialize`. -/
def serializeRequest {R : Type} (env : Env) (method : List UInt8)
    (ser : R → WriteableByteArray → Except Fault (Bool × WriteableByteArray)) (request : R)
    (w : WriteableByteArray) : Except Fault (Bool × WriteableByteArray) :=
  match serializeString env method w with
  | .error f => .error f
  | .ok (false, w') => .ok (false, w')
  | .ok (true, w') => ser request w'

/-- `deserialize_response(response, bytes)`. -/
def deserializeResponse {R : Type}
    (deser : R → ReadableByteArray → Except Fault (Bool × R × ReadableByteArray)) (response : R)
    (r : ReadableByteArray) : Except Fault (Bool × R × ReadableByteArray) := deser response r

/-! ## The dispatcher -/

theorem foldl_registerService_of_ne {m : List UInt8} {regs : List (List UInt8 × Service σ)}
    (h : ∀ p ∈ regs, p.1 ≠ m) (d : Dispatcher σ) :
    regs.foldl (fun d p => d.registerService p.1 p.2) d m = d m := by
  induction regs generalizing d with
  | nil => rfl
  | cons p regs ih =>
    rw [List.foldl_cons, ih fun q hq => h q (List.mem_cons_of_mem _ hq)]
    exact if_neg fun hm => h p List.mem_cons_self hm.symm

theorem dispatcher_of_last {m : List UInt8} {service : Service σ}
    {pre post : List (List UInt8 × Service σ)} (h : ∀ p ∈ post, p.1 ≠ m) :
    dispatcher (pre ++ (m, service) :: post) m = some service := by
  rw [dispatcher, List.foldl_append, List.foldl_cons, foldl_registerService_of_ne h]
  exact if_pos rfl

theorem dispatcher_of_never {m : List UInt8} {regs : List (List UInt8 × Service σ)}
    (h : ∀ p ∈ regs, p.1 ≠ m) : dispatcher regs m = none :=
  foldl_registerService_of_ne h _

/-! ## Framed pairs -/

/-- The bytes of a value in the framed format. -/
def frame {R : Type} (payload : R → List UInt8) (x : R) : List UInt8 :=
  framed (payload x).length (payload x)

/-- `serialize` appends the length and the payload of a value, and `deserialize` takes just these
bytes and gives the value back, whatever the object held. -/
structure Framed {R : Type} (payload : R → List UInt8)
    (ser : R → WriteableByteArray → Except Fault (Bool × WriteableByteArray))
    (deser : R → ReadableByteArray → Except Fault (Bool × R × ReadableByteArray)) : Prop where
  serialize_spec : ∀ (x : R) (w : WriteableByteArray), w.Usable →
    w.cur + (frame payload x).length < 2 ^ 63 →
      ∃ w', ser x w = .ok (true, w') ∧ w'.contents = w.contents ++ frame payload x
  deserialize_spec : ∀ (x old : R) (r : ReadableByteArray) (ys : List UInt8),
    r.rest = frame payload x ++ ys →
      ∃ r', deser old r = .ok (true, x, r') ∧ r'.rest = ys ∧ r'.size = r.size

theorem framed_protobuf {ι : Type} {T : ι → Type} {env : Env} {pb : Protobuf T}
    (hm : ∀ n, (env.malloc n).isSome) (hpb : pb.Exact) (i : ι) :
    Framed (fun m : T i => (pb.serializeToArray m (pb.byteSize m)).getD [])
      (serializeToByteArray env pb) (deserializeFromByteArray pb) := by
  have hframe : ∀ m, frame (fun m : T i => (pb.serializeToArray m (pb.byteSize m)).getD []) m =
      wire pb (.proto i) m := by
    intro m
    obtain ⟨bs, hbs, hlen, -⟩ := hpb.parse_serialize m
    rw [wire_proto hbs, frame, hbs, Option.getD_some, hlen]
  refine ⟨fun m w hw hfit => ?_, fun m old r ys hr => ?_⟩
  · rw [hframe] at hfit ⊢
    obtain ⟨w', h, hc, -⟩ := serializeToByteArray_spec hm hw hpb hfit
    exact ⟨w', h, hc⟩
  · rw [hframe] at hr
    exact deserializeFromByteArray_spec hpb hr old

/-! ## One call -/

theorem rest_new_contents (w : WriteableByteArray) (h : w.cur < 2 ^ 63) :
    (ReadableByteArray.new w.mem w.cur h).rest = w.contents := rfl

theorem cur_eq_size {r : ReadableByteArray} (h : r.rest = []) : r.cur = r.size := by
  have hle := r.cur_le
  have hlen := r.length_rest
  rw [h, List.length_nil] at hlen
  omega

theorem serializeRequest_spec {R : Type} {payload : R → List UInt8} {env : Env}
    {ser : R → WriteableByteArray → Except Fault (Bool × WriteableByteArray)}
    {deser : R → ReadableByteArray → Except Fault (Bool × R × ReadableByteArray)}
    (hf : Framed payload ser deser) (hm : ∀ n, (env.malloc n).isSome) (userFree : Bool)
    (small : ℕ → UInt8) {m : List UInt8} {request : R}
    (hfit : (framed m.length m ++ frame payload request).length < 2 ^ 63) :
    ∃ w, ∃ _ : w.cur < 2 ^ 63,
      serializeRequest env m ser request (.new userFree small) = .ok (true, w) ∧
        w.contents = framed m.length m ++ frame payload request := by
  rw [List.length_append] at hfit
  obtain ⟨w₁, h₁, hc₁, hb₁⟩ := serializeString_spec hm
    (WriteableByteArray.usable_new userFree small) (s := m)
    (by rw [show (WriteableByteArray.new userFree small).cur = 0 from rfl]; omega)
  rw [WriteableByteArray.contents_new, List.nil_append] at hc₁
  have hcur₁ := w₁.length_contents
  rw [hc₁] at hcur₁
  obtain ⟨w₂, h₂, hc₂⟩ := hf.serialize_spec request w₁ (absurd · hb₁) (by omega)
  rw [hc₁] at hc₂
  have hcur₂ := w₂.length_contents
  rw [hc₂, List.length_append] at hcur₂
  exact ⟨w₂, by omega, by simp only [serializeRequest, h₁, h₂], hc₂⟩

section

variable {env : Env} {d : Dispatcher σ} {m : List UInt8} {r : ReadableByteArray} {bs : List UInt8}
  (hfits : env.stringFits m.length = true) (hr : r.rest = framed m.length m ++ bs)

include hfits hr

theorem handle_of_not_registered (hd : d m = none) (s : σ) (w : WriteableByteArray) :
    handle env d s r w = .ok (s, false, w) := by
  obtain ⟨r', h, -⟩ := deserializeString_spec hfits hr []
  simp only [handle, deserializeMethod, h, hd]

theorem handle_of_registered {service : Service σ} (hd : d m = some service)
    {payload : service.Request → List UInt8} {payload' : service.Response → List UInt8}
    {ser : service.Request → WriteableByteArray → Except Fault (Bool × WriteableByteArray)}
    {deser : service.Response → ReadableByteArray →
      Except Fault (Bool × service.Response × ReadableByteArray)}
    (hf : Framed payload ser service.deserialize) (hf' : Framed payload' service.serialize deser)
    {request : service.Request} (hbs : bs = frame payload request) (s : σ) (userFree : Bool)
    (small : ℕ → UInt8)
    (hfit : (frame payload' (service.run request service.allocateResponse s).1).length < 2 ^ 63) :
    ∃ w, handle env d s r (.new userFree small) =
        .ok ((service.run request service.allocateResponse s).2, true, w) ∧
      w.contents = frame payload' (service.run request service.allocateResponse s).1 := by
  obtain ⟨r₁, h₁, hr₁, -⟩ := deserializeString_spec hfits hr []
  rw [hbs, ← List.append_nil (frame payload request)] at hr₁
  obtain ⟨r₂, h₂, -⟩ := hf.deserialize_spec request service.allocateRequest r₁ [] hr₁
  obtain ⟨w, h₃, hc⟩ := hf'.serialize_spec _ _ (WriteableByteArray.usable_new userFree small)
    (by rw [show (WriteableByteArray.new userFree small).cur = 0 from rfl, zero_add]; exact hfit)
  rw [WriteableByteArray.contents_new, List.nil_append] at hc
  exact ⟨w, by simp only [handle, deserializeMethod, h₁, hd, h₂, serializeResponse, h₃], hc⟩

end

/-- **A request reaches its service and the response comes back**, for every sequence of
registrations, every method, request and state of the services: `handle` returns `0`, has run the
service registered last under the method once, on the request that was serialized, and
`deserialize_response` takes all of the out bytes and gives its response. For a method that nobody
registered it returns `-1`, changes no service and writes nothing. -/
theorem handle_serializeRequest {env : Env} (hm : ∀ n, (env.malloc n).isSome)
    {m : List UInt8} (hfits : env.stringFits m.length = true)
    (regs : List (List UInt8 × Service σ)) (s : σ) (userFree userFree' : Bool)
    (small small' : ℕ → UInt8) :
    (∀ pre post service, regs = pre ++ (m, service) :: post → (∀ p ∈ post, p.1 ≠ m) →
      ∀ payload ser payload' deser, Framed payload ser service.deserialize →
        Framed payload' service.serialize deser → ∀ request response s',
          service.run request service.allocateResponse s = (response, s') →
          (framed m.length m ++ frame payload request).length < 2 ^ 63 →
          (frame payload' response).length < 2 ^ 63 →
      ∃ inBytes hin,
        serializeRequest env m ser request (.new userFree small) = .ok (true, inBytes) ∧
        ∃ outBytes hout, handle env (dispatcher regs) s (.new inBytes.mem inBytes.cur hin)
            (.new userFree' small') = .ok (s', true, outBytes) ∧
          ∀ old, ∃ r, deserializeResponse deser old (.new outBytes.mem outBytes.cur hout) =
            .ok (true, response, r) ∧ r.cur = r.size) ∧
    ((∀ p ∈ regs, p.1 ≠ m) →
      ∀ (R : Type) (payload : R → List UInt8) ser deser, Framed payload ser deser → ∀ request,
        (framed m.length m ++ frame payload request).length < 2 ^ 63 →
      ∃ inBytes hin,
        serializeRequest env m ser request (.new userFree small) = .ok (true, inBytes) ∧
        handle env (dispatcher regs) s (.new inBytes.mem inBytes.cur hin) (.new userFree' small') =
          .ok (s, false, .new userFree' small')) := by
  constructor
  · rintro pre post service rfl hpost payload ser payload' deser hf hf' request response s' hrun
      hfit hfit'
    obtain ⟨w, hin, h, hc⟩ := serializeRequest_spec hf hm userFree small hfit
    obtain ⟨out, hh, hout⟩ := handle_of_registered hfits
      ((rest_new_contents w hin).trans hc) (dispatcher_of_last hpost) hf hf' rfl s
      userFree' small' (by rw [hrun]; exact hfit')
    rw [hrun] at hh hout
    have hcur : out.cur < 2 ^ 63 := by rw [← out.length_contents, hout]; exact hfit'
    refine ⟨w, hin, h, out, hcur, hh, fun old => ?_⟩
    obtain ⟨r, hd, hrest, -⟩ := hf'.deserialize_spec response old (.new out.mem out.cur hcur) []
      (by rw [List.append_nil, rest_new_contents, hout])
    exact ⟨r, hd, cur_eq_size hrest⟩
  · intro hnever R payload ser deser hf request hfit
    obtain ⟨w, hin, h, hc⟩ := serializeRequest_spec hf hm userFree small hfit
    exact ⟨w, hin, h, handle_of_not_registered hfits ((rest_new_contents w hin).trans hc)
      (dispatcher_of_never hnever) s _⟩

/-- A service that negates its request and counts its runs. -/
def negate : Service ℕ :=
  protoService roomy flagPb (i := ()) (j := ()) false false fun request _ n => (!request, n + 1)

/-- A service that sends its request back. -/
def echo : Service ℕ :=
  protoService roomy flagPb (i := ()) (j := ()) false false fun request _ n => (request, n)

/-- With the method `"n"` registered twice, the later service answers; `"x"` has none. -/
theorem handle_negate :
    (∃ inBytes hin, serializeRequest roomy [0x6e] (serializeToByteArray roomy flagPb (i := ()))
        true (.new false fun _ => 0) = .ok (true, inBytes) ∧
      ∃ outBytes hout, handle roomy
          (dispatcher [([0x6e], echo), ([0x6e], negate), ([0x65], echo)]) 0
          (.new inBytes.mem inBytes.cur hin) (.new true fun _ => 0) = .ok (1, true, outBytes) ∧
        ∀ old, ∃ r, deserializeResponse (deserializeFromByteArray flagPb (i := ())) old
          (.new outBytes.mem outBytes.cur hout) = .ok (true, false, r) ∧ r.cur = r.size) ∧
    ∃ inBytes hin, serializeRequest roomy [0x78] (serializeToByteArray roomy flagPb (i := ()))
        true (.new false fun _ => 0) = .ok (true, inBytes) ∧
      handle roomy (dispatcher [([0x6e], negate)]) 0 (.new inBytes.mem inBytes.cur hin)
        (.new true fun _ => 0) = .ok (0, false, .new true fun _ => 0) := by
  have hf := framed_protobuf (fun n => (rfl : (roomy.malloc n).isSome)) flagPb_exact ()
  constructor
  · exact (handle_serializeRequest (fun _ => rfl) rfl
      [([0x6e], echo), ([0x6e], negate), ([0x65], echo)] 0 false true _ _).1
      [([0x6e], echo)] [([0x65], echo)] negate rfl (by simp) _ _ _ _ hf hf true false 1 rfl
      (by decide) (by decide)
  · exact (handle_serializeRequest (fun _ => rfl) rfl [([0x6e], negate)] 0 false true _ _).2
      (by simp) Bool _ _ _ hf true (by decide)

end Sperm.Sasuke
