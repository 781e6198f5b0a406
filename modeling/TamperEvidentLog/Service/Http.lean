/-
# Requests and responses

What the HTTP layer makes of a request: a handler answers it, passes it on or
throws, and whatever is thrown without being an `AppError` is answered by the
global error handler with status 500.
-/

import TamperEvidentLog.Text.Json
import TamperEvidentLog.Text.Join

namespace TamperEvidentLog.Service

open TamperEvidentLog.Text

/-- An answer: its status code and its JSON body. -/
structure Response where
  /-- The status code. -/
  statusCode : ℕ
  /-- The body. -/
  body : Json

/-- How a middleware ends. -/
inductive Handled (β : Type)
  | /-- `next()`: the request goes on, carrying `value`. -/
    next (value : β)
  | /-- The request is answered. -/
    answered (response : Response)
  | /-- An exception, which is no `AppError`. -/
    thrown

namespace HttpStatus

/-- `HTTP_STATUS.OK`. -/
def ok : ℕ := 200

/-- `HTTP_STATUS.CREATED`. -/
def created : ℕ := 201

/-- `HTTP_STATUS.BAD_REQUEST`. -/
def badRequest : ℕ := 400

/-- `HTTP_STATUS.UNAUTHORIZED`. -/
def unauthorized : ℕ := 401

/-- `HTTP_STATUS.NOT_FOUND`. -/
def notFound : ℕ := 404

/-- `HTTP_STATUS.UNPROCESSABLE_ENTITY`. -/
def unprocessableEntity : ℕ := 422

/-- `HTTP_STATUS.TOO_MANY_REQUESTS`. -/
def tooManyRequests : ℕ := 429

/-- `HTTP_STATUS.INTERNAL_SERVER_ERROR`. -/
def internalServerError : ℕ := 500

/-- `HTTP_STATUS.SERVICE_UNAVAILABLE`. -/
def serviceUnavailable : ℕ := 503

end HttpStatus

namespace Response

/-- `success(res, data)`. -/
def success (data : Json) : Response :=
  ⟨HttpStatus.ok,
    .object [(js "success", .bool true), (js "message", .string (js "Success")), (js "data", data)]⟩

/-- `created(res, data, MESSAGES.CREATED)`. -/
def created (data : Json) : Response :=
  ⟨HttpStatus.created,
    .object [(js "success", .bool true),
      (js "message", .string (js "Resource created successfully")), (js "data", data)]⟩

/-- `paginated(res, data, meta)`. -/
def paginated (data info : Json) : Response :=
  ⟨HttpStatus.ok,
    .object [(js "success", .bool true), (js "message", .string (js "Success")), (js "data", data),
      (js "meta", info)]⟩

/-- `error(res, statusCode, message, details)`. -/
def error (statusCode : ℕ) (message : JsString) (details : Json) : Response :=
  ⟨statusCode,
    .object [(js "success", .bool false), (js "message", .string message), (js "details", details)]⟩

/-- `globalErrorHandler`, for what is no `AppError`. -/
def globalErrorHandler : Response :=
  ⟨HttpStatus.internalServerError, .object [(js "error", .string (js "Internal Server Error"))]⟩

/-- `notFoundHandler`. -/
def notFoundHandler : Response :=
  ⟨HttpStatus.notFound, .object [(js "error", .string (js "Not Found"))]⟩

/-- The handler of the rate limiter. -/
def tooManyRequests : Response :=
  ⟨HttpStatus.tooManyRequests, .object [(js "error", .string (js "Too Many Requests"))]⟩

end Response

/-! ## Validation errors -/

/-- What a schema has to say about one field. -/
structure Issue where
  /-- The keys that lead to the field. -/
  path : List JsString
  /-- The complaint. -/
  message : JsString
  deriving DecidableEq

/-- `{ field: e.path.join('.'), message: e.message }`. -/
def Issue.detail (issue : Issue) : Json :=
  .object [(js "field", .string (joinWith 0x2E issue.path)),
    (js "message", .string issue.message)]

/-- `result.error.errors.map(...)`. -/
def issueDetails (issues : List Issue) : Json := .array (issues.map Issue.detail)

end TamperEvidentLog.Service
