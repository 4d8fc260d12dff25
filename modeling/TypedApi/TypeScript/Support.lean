/-! The files that every client has.

They send requests, read streams of events and build forms. -/
namespace TypedApi.TypeScript

/-- Ends every line. -/
def unlines (lines : List String) : String := String.join (lines.map (· ++ "\n"))

def notice : String := "// Generated by typebridge. Do not edit."

/-- The first lines of a file that belongs to one API. -/
def heading (title version : String) : String :=
  unlines ["// " ++ title ++ " " ++ version, notice]

/-! ### Requests -/

def runtimeStart : List String := [
  "",
  "import \x7b toFormData \x7d from \"./form-data\";",
  "",
  "export interface ClientConfig \x7b",
  "  baseUrl: string;",
  "  headers?: Record<string, string>;",
  "  fetch?: typeof fetch;",
  "\x7d",
  "",
  "export const defaultConfig: ClientConfig = \x7b"]

def runtimeEnd : List String := [
  "\x7d;",
  "",
  "export function configure(config: Partial<ClientConfig>): void \x7b",
  "  Object.assign(defaultConfig, config);",
  "\x7d",
  "",
  "export class ApiError<E = unknown> extends Error \x7b",
  "  constructor(",
  "    readonly status: number,",
  "    readonly body: E,",
  "    message?: string,",
  "  ) \x7b",
  "    super(message ?? `Request failed with status $\x7bstatus\x7d`);",
  "    this.name = \"ApiError\";",
  "  \x7d",
  "\x7d",
  "",
  "export type ApiResult<T, E = unknown> =",
  "  | \x7b ok: true; status: number; data: T \x7d",
  "  | \x7b ok: false; status: number; error: ApiError<E> \x7d;",
  "",
  "export type BodyKind = \"json\" | \"multipart\" | \"binary\" | \"text\";",
  "export type ResponseKind = \"json\" | \"text\" | \"blob\" | \"formData\" | \"void\" | " ++
    "\"stream\" | \"events\";",
  "",
  "export interface RequestSpec \x7b",
  "  method: string;",
  "  path: string;",
  "  pathParams?: object;",
  "  query?: object;",
  "  headers?: object;",
  "  body?: unknown;",
  "  bodyKind?: BodyKind;",
  "  responseKind: ResponseKind;",
  "  signal?: AbortSignal;",
  "\x7d",
  "",
  "export function buildUrl(",
  "  baseUrl: string,",
  "  path: string,",
  "  pathParams?: object,",
  "  query?: object,",
  "): string \x7b",
  "  const params = (pathParams ?? \x7b\x7d) as Record<string, unknown>;",
  "  const resolved = path.replace(/\\\x7b([^\x7d]+)\\\x7d/g, (_, name: string) =>",
  "    encodeURIComponent(String(params[name])),",
  "  );",
  "  const search = new URLSearchParams();",
  "  for (const [key, value] of Object.entries(query ?? \x7b\x7d)) \x7b",
  "    if (value === undefined || value === null) continue;",
  "    if (Array.isArray(value)) \x7b",
  "      for (const item of value) search.append(key, String(item));",
  "    \x7d else if (typeof value === \"object\") \x7b",
  "      search.append(key, JSON.stringify(value));",
  "    \x7d else \x7b",
  "      search.append(key, String(value));",
  "    \x7d",
  "  \x7d",
  "  const qs = search.toString();",
  "  return `$\x7bbaseUrl.replace(/\\/$/, \"\")\x7d$\x7bresolved\x7d$\x7bqs ? " ++
    "`?$\x7bqs\x7d` : \"\"\x7d`;",
  "\x7d",
  "",
  "function encodeBody(spec: RequestSpec, headers: Headers): BodyInit | undefined \x7b",
  "  if (spec.body === undefined) return undefined;",
  "  switch (spec.bodyKind ?? \"json\") \x7b",
  "    case \"multipart\":",
  "      return spec.body instanceof FormData ? spec.body : toFormData(spec.body as object);",
  "    case \"binary\":",
  "      if (!headers.has(\"Content-Type\")) headers.set(\"Content-Type\", " ++
    "\"application/octet-stream\");",
  "      return spec.body as BodyInit;",
  "    case \"text\":",
  "      if (!headers.has(\"Content-Type\")) headers.set(\"Content-Type\", \"text/plain\");",
  "      return String(spec.body);",
  "    case \"json\":",
  "      headers.set(\"Content-Type\", \"application/json\");",
  "      return JSON.stringify(spec.body);",
  "  \x7d",
  "\x7d",
  "",
  "async function decodeBody(response: Response, kind: ResponseKind): Promise<unknown> \x7b",
  "  switch (kind) \x7b",
  "    case \"void\":",
  "      return undefined;",
  "    case \"text\":",
  "      return response.text();",
  "    case \"blob\":",
  "      return response.blob();",
  "    case \"formData\":",
  "      return response.formData();",
  "    case \"stream\":",
  "    case \"events\":",
  "      return response.body;",
  "    case \"json\": \x7b",
  "      const text = await response.text();",
  "      return text ? JSON.parse(text) : undefined;",
  "    \x7d",
  "  \x7d",
  "\x7d",
  "",
  "export async function send(config: ClientConfig, spec: RequestSpec): Promise<Response> \x7b",
  "  const headers = new Headers(config.headers);",
  "  for (const [key, value] of Object.entries(spec.headers ?? \x7b\x7d)) \x7b",
  "    if (value !== undefined && value !== null) headers.set(key, String(value));",
  "  \x7d",
  "  const body = encodeBody(spec, headers);",
  "  const doFetch = config.fetch ?? fetch;",
  "  return doFetch(buildUrl(config.baseUrl, spec.path, spec.pathParams, spec.query), \x7b",
  "    method: spec.method,",
  "    headers,",
  "    body,",
  "    signal: spec.signal,",
  "  \x7d);",
  "\x7d",
  "",
  "export async function request<T>(config: ClientConfig, spec: RequestSpec): " ++
    "Promise<ApiResult<T>> \x7b",
  "  const response = await send(config, spec);",
  "  if (!response.ok) \x7b",
  "    const text = await response.text();",
  "    let body: unknown = text;",
  "    try \x7b",
  "      body = text ? JSON.parse(text) : undefined;",
  "    \x7d catch \x7b",
  "      // plain-text error body",
  "    \x7d",
  "    return \x7b ok: false, status: response.status, error: new ApiError(response.status, " ++
    "body) \x7d;",
  "  \x7d",
  "  const data = (await decodeBody(response, spec.responseKind)) as T;",
  "  return \x7b ok: true, status: response.status, data \x7d;",
  "\x7d"]

/-- Sends requests to the given address unless a client is set up otherwise. -/
def runtime (title version baseUrl : String) : String :=
  heading title version ++ unlines runtimeStart ++
    "  baseUrl: \"" ++ baseUrl ++ "\",\n" ++ unlines runtimeEnd

/-! ### Streams of events -/

def eventStreamLines : List String := [
  "",
  "import \x7b ApiError, ApiResult, ClientConfig, RequestSpec, send \x7d from \"./runtime\";",
  "",
  "export interface ServerSentEvent<T> \x7b",
  "  event: string;",
  "  data: T;",
  "  id?: string;",
  "\x7d",
  "",
  "/** Parse a `text/event-stream` body into events, decoding `data` as JSON when possible. */",
  "export async function* readEventStream<T>(",
  "  stream: ReadableStream<Uint8Array>,",
  "): AsyncGenerator<ServerSentEvent<T>> \x7b",
  "  const reader = stream.getReader();",
  "  const decoder = new TextDecoder();",
  "  let buffer = \"\";",
  "  let event = \"message\";",
  "  let data: string[] = [];",
  "  let id: string | undefined;",
  "",
  "  const flush = (): ServerSentEvent<T> | undefined => \x7b",
  "    if (data.length === 0) return undefined;",
  "    const raw = data.join(\"\\n\");",
  "    let parsed: unknown = raw;",
  "    try \x7b",
  "      parsed = JSON.parse(raw);",
  "    \x7d catch \x7b",
  "      // non-JSON payload",
  "    \x7d",
  "    const message: ServerSentEvent<T> = \x7b event, data: parsed as T, id \x7d;",
  "    event = \"message\";",
  "    data = [];",
  "    return message;",
  "  \x7d;",
  "",
  "  for (;;) \x7b",
  "    const \x7b value, done \x7d = await reader.read();",
  "    if (done) break;",
  "    buffer += decoder.decode(value, \x7b stream: true \x7d);",
  "    let newline: number;",
  "    while ((newline = buffer.indexOf(\"\\n\")) >= 0) \x7b",
  "      const line = buffer.slice(0, newline).replace(/\\r$/, \"\");",
  "      buffer = buffer.slice(newline + 1);",
  "      if (line === \"\") \x7b",
  "        const message = flush();",
  "        if (message) yield message;",
  "        continue;",
  "      \x7d",
  "      if (line.startsWith(\":\")) continue;",
  "      const colon = line.indexOf(\":\");",
  "      const field = colon < 0 ? line : line.slice(0, colon);",
  "      const content = colon < 0 ? \"\" : line.slice(colon + 1).replace(/^ /, \"\");",
  "      if (field === \"event\") event = content;",
  "      else if (field === \"data\") data.push(content);",
  "      else if (field === \"id\") id = content;",
  "    \x7d",
  "  \x7d",
  "  const last = flush();",
  "  if (last) yield last;",
  "\x7d",
  "",
  "/** Open an event stream and expose it as an async iterable of typed events. */",
  "export async function streamEvents<E>(",
  "  config: ClientConfig,",
  "  spec: RequestSpec,",
  "): Promise<ApiResult<AsyncIterable<E>>> \x7b",
  "  const headers = \x7b Accept: \"text/event-stream\", ...(spec.headers ?? \x7b\x7d) \x7d;",
  "  const response = await send(config, \x7b ...spec, headers \x7d);",
  "  if (!response.ok || !response.body) \x7b",
  "    const text = await response.text();",
  "    return \x7b ok: false, status: response.status, error: new ApiError(response.status, " ++
    "text) \x7d;",
  "  \x7d",
  "  const body = response.body;",
  "  return \x7b",
  "    ok: true,",
  "    status: response.status,",
  "    data: \x7b [Symbol.asyncIterator]: () => readEventStream(body) as unknown as " ++
    "AsyncIterator<E> \x7d,",
  "  \x7d;",
  "\x7d"]

def eventStreams : String := unlines (notice :: eventStreamLines)

/-! ### Forms -/

def formDataLines : List String := [
  "",
  "function append(form: FormData, key: string, value: unknown): void \x7b",
  "  if (value === undefined || value === null) return;",
  "  if (value instanceof Blob) \x7b",
  "    form.append(key, value);",
  "  \x7d else if (Array.isArray(value)) \x7b",
  "    for (const item of value) append(form, key, item);",
  "  \x7d else if (value instanceof Date) \x7b",
  "    form.append(key, value.toISOString());",
  "  \x7d else if (typeof value === \"object\") \x7b",
  "    form.append(key, JSON.stringify(value));",
  "  \x7d else \x7b",
  "    form.append(key, String(value));",
  "  \x7d",
  "\x7d",
  "",
  "/** Multipart body from a plain object; arrays repeat their key. */",
  "export function toFormData(body: object): FormData \x7b",
  "  const form = new FormData();",
  "  for (const [key, value] of Object.entries(body)) \x7b",
  "    append(form, key, value);",
  "  \x7d",
  "  return form;",
  "\x7d"]

def formData : String := unlines (notice :: formDataLines)

end TypedApi.TypeScript
